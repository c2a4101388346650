import Koala.Image.Constants
import Koala.Image.Outcome

open koala.atomtable

namespace koala.image

set_option linter.style.nameCheck false

/-- Every constant was stored by an earlier call, at the item of that call. -/
def Origin (mem : Memory) (calls : List Add) (n : Nat) (K : List ConstItem) : Prop :=
  ∀ c ∈ K, ∃ m < n, c.addr = mem.item m ∧
    ∀ f, c.val = .CONST_FLOAT f → calls[m]? = some (.Float f)

/-- The floats of the first `n` calls are stored. -/
def FloatsStored (calls : List Add) (n : Nat) (K : List ConstItem) : Prop :=
  ∀ m < n, ∀ f, calls[m]? = some (.Float f) → ∃ c ∈ K, c.val = .CONST_FLOAT f

/-- The `n`th call stores `val`. -/
def StoredBy (calls : List Add) (n : Nat) (val : ConstVal) : Prop :=
  ∀ f, val = .CONST_FLOAT f ↔ calls[n]? = some (.Float f)

/-- No float of the first `n` calls equals that of the `n`th call. -/
def NewFloat (calls : List Add) (n : Nat) : Prop :=
  ∀ f, calls[n]? = some (.Float f) →
    ∀ m < n, ∀ g, calls[m]? = some (.Float g) → float_eq g f = false

section origin

variable {mem : Memory} {calls : List Add} {n : Nat} {K : List ConstItem} {val : ConstVal}
  {T T₁ : Table} {index : Int}

theorem Origin.succ (h : Origin mem calls n K) : Origin mem calls (n + 1) K := by
  intro c hc
  obtain ⟨m, hm, hrest⟩ := h c hc
  exact ⟨m, by omega, hrest⟩

theorem Origin.append (h : Origin mem calls n K) (hval : StoredBy calls n val) :
    Origin mem calls (n + 1) (K ++ [⟨mem.item n, val⟩]) := by
  intro c hc
  rcases List.mem_append.mp hc with hc | hc
  · exact h.succ c hc
  · obtain rfl := List.mem_singleton.mp hc
    exact ⟨n, by omega, rfl, fun f hf => (hval f).mp hf⟩

/-- Storing a constant keeps track of where constants are. -/
theorem Origin.constitem_set (hwf : WF T) (h : Origin mem calls n (T.items .ITEM_CONST))
    (hval : StoredBy calls n val)
    (hset : constitem_set (mem.key n) (mem.item n) T val = .ok (index, T₁)) :
    Origin mem calls (n + 1) (T₁.items .ITEM_CONST) := by
  rcases constitem_set_ok hwf hset with rfl | ⟨_, hitems⟩
  · exact h.succ
  · rw [hitems, appended_self]
    exact h.append hval

/-- A bool is stored at a new address, and a new float differs from the stored
ones. -/
theorem Origin.absent (h : Origin mem calls n K) (hplain : val.plain = false)
    (hval : StoredBy calls n val) (hnew : NewFloat calls n) {addr : Nat}
    (haddr : ∀ m < n, mem.item m ≠ addr) :
    ∀ c ∈ K, constitem_equal c ⟨addr, val⟩ = false := by
  intro c hc
  obtain ⟨m, hm, hitem, hfloat⟩ := h c hc
  by_contra hne
  have hequal : constitem_equal c ⟨addr, val⟩ = true := by simpa using hne
  cases val with
  | CONST_FLOAT f =>
    obtain ⟨g, hg, hgf⟩ := constitem_equal_float hequal
    have hfalse := hnew f ((hval f).mp rfl) m hm g (hfloat g hg)
    rw [hfalse] at hgf
    cases hgf
  | CONST_BOOL b =>
    have hsame := constitem_equal_bool hequal
    rw [hitem] at hsame
    exact haddr m hm hsame
  | CONST_INT | CONST_STRING | CONST_UCHAR => cases hplain

theorem FloatsStored.succ (h : FloatsStored calls n K)
    (hnot : ∀ f, calls[n]? ≠ some (.Float f)) : FloatsStored calls (n + 1) K := by
  intro m hm f hf
  rcases Nat.lt_or_ge m n with hlt | hge
  · exact h m hlt f hf
  · obtain rfl : m = n := by omega
    exact absurd hf (hnot f)

theorem FloatsStored.append (h : FloatsStored calls n K) (hval : StoredBy calls n val)
    (addr : Nat) : FloatsStored calls (n + 1) (K ++ [⟨addr, val⟩]) := by
  intro m hm f hf
  rcases Nat.lt_or_ge m n with hlt | hge
  · obtain ⟨c, hc, hcf⟩ := h m hlt f hf
    exact ⟨c, List.mem_append_left _ hc, hcf⟩
  · obtain rfl : m = n := by omega
    exact ⟨_, List.mem_append_right K (List.mem_singleton.mpr rfl), (hval f).mpr hf⟩

end origin

/-- Storing constants keeps tables alike. -/
theorem Alike.constants {K K' : List ConstItem} {T T' T₁ T₁' : Table} (h : Alike K K' T T')
    {key item key' item' : Nat} {val val' : ConstVal} {index index' : Int}
    (hset : constitem_set key item T val = .ok (index, T₁))
    (hset' : constitem_set key' item' T' val' = .ok (index', T₁')) :
    Alike (T₁.items .ITEM_CONST) (T₁'.items .ITEM_CONST) T₁ T₁' := by
  have hkept : ∀ {S S₁ : Table} {k i : Nat} {v : ConstVal} {x : Int}, WF S →
      constitem_set k i S v = .ok (x, S₁) →
      WF S₁ ∧ ∀ type, type ≠ .ITEM_CONST → S₁.items type = S.items type := by
    intro S S₁ k i v x hwf hok
    rcases constitem_set_ok hwf hok with rfl | ⟨hwf₁, hitems⟩
    · exact ⟨hwf, fun _ _ => rfl⟩
    · exact ⟨hwf₁, fun type htype => by rw [hitems, appended_of_ne _ _ htype]⟩
  obtain ⟨hwf, hitems⟩ := hkept h.wf hset
  obtain ⟨hwf', hitems'⟩ := hkept h.wf' hset'
  refine ⟨hwf, hwf', ?_, fun type htype => ?_, rfl, rfl⟩
  · exact h.strings.congr (hitems .ITEM_STRING nofun).symm
  · rw [hitems type htype, hitems' type htype, h.items type htype]

/-- Two runs of the same calls in two memories, before the `n`th call: their
tables hold the same values. -/
structure Twin (mem mem' : Memory) (calls : List Add) (n : Nat) (T T' : Table) : Prop where
  alike : Alike (T.items .ITEM_CONST) (T'.items .ITEM_CONST) T T'
  vals : (T.items .ITEM_CONST).map ConstItem.val = (T'.items .ITEM_CONST).map ConstItem.val
  origin : Origin mem calls n (T.items .ITEM_CONST)
  origin' : Origin mem' calls n (T'.items .ITEM_CONST)
  stored : FloatsStored calls n (T.items .ITEM_CONST)

namespace Twin

variable {mem mem' : Memory} {calls : List Add} {n : Nat} {T T' T₁ T₁' : Table} {val : ConstVal}

theorem of_alike (h : Twin mem mem' calls n T T')
    (halike : Alike (T.items .ITEM_CONST) (T'.items .ITEM_CONST) T₁ T₁') :
    Twin mem mem' calls n T₁ T₁' where
  alike := by
    rw [halike.consts, halike.consts']
    exact halike
  vals := by
    rw [halike.consts, halike.consts']
    exact h.vals
  origin := by
    rw [halike.consts]
    exact h.origin
  origin' := by
    rw [halike.consts']
    exact h.origin'
  stored := by
    rw [halike.consts]
    exact h.stored

theorem succ (h : Twin mem mem' calls n T T') (hnot : ∀ f, calls[n]? ≠ some (.Float f)) :
    Twin mem mem' calls (n + 1) T T' where
  alike := h.alike
  vals := h.vals
  origin := h.origin.succ
  origin' := h.origin'.succ
  stored := h.stored.succ hnot

theorem size_eq (h : Twin mem mem' calls n T T') :
    AtomTable_Size T .ITEM_CONST = AtomTable_Size T' .ITEM_CONST := by
  have hlength := congrArg List.length h.vals
  rwa [List.length_map, List.length_map] at hlength

/-- What both runs do with a constant that neither of them holds. -/
theorem constitem_set_new (h : Twin mem mem' calls n T T') (hval : StoredBy calls n val)
    {key key' : Nat}
    (hkey : ∀ c ∈ T.items .ITEM_CONST, constitem_equal c ⟨key, val⟩ = false)
    (hitem : ∀ c ∈ T.items .ITEM_CONST, constitem_equal c ⟨mem.item n, val⟩ = false)
    (hkey' : ∀ c ∈ T'.items .ITEM_CONST, constitem_equal c ⟨key', val⟩ = false)
    (hitem' : ∀ c ∈ T'.items .ITEM_CONST, constitem_equal c ⟨mem'.item n, val⟩ = false) :
    Agree (fun r r' => r.1 = r'.1 ∧ Twin mem mem' calls (n + 1) r.2 r'.2)
      (constitem_set key (mem.item n) T val) (constitem_set key' (mem'.item n) T' val) := by
  obtain ⟨T₁, hset, _, hitems⟩ := image.constitem_set_new h.alike.wf hkey hitem
  obtain ⟨T₁', hset', _, hitems'⟩ := image.constitem_set_new h.alike.wf' hkey' hitem'
  have halike := h.alike.constants hset hset'
  rw [hset, hset', h.size_eq]
  refine .ok ⟨rfl, halike, ?_, ?_, ?_, ?_⟩
  · rw [hitems, hitems', appended_self, appended_self, List.map_append, List.map_append, h.vals]
    rfl
  · rw [hitems, appended_self]
    exact h.origin.append hval
  · rw [hitems', appended_self]
    exact h.origin'.append hval
  · rw [hitems, appended_self]
    exact h.stored.append hval _

/-- Storing a constant does not depend on the memory unless it is a float equal
to an earlier one. -/
theorem constitem_set (h : Twin mem mem' calls n T T') (hval : StoredBy calls n val)
    (hnew : NewFloat calls n) :
    Agree (fun r r' => r.1 = r'.1 ∧ Twin mem mem' calls (n + 1) r.2 r'.2)
      (constitem_set (mem.key n) (mem.item n) T val)
      (constitem_set (mem'.key n) (mem'.item n) T' val) := by
  cases hplain : val.plain with
  | false =>
    have hkeys : ∀ (memory : Memory), ∀ m < n, memory.item m ≠ memory.key n :=
      fun memory m _ => (memory.key_ne_item n m).symm
    have hitems : ∀ (memory : Memory), ∀ m < n, memory.item m ≠ memory.item n := by
      intro memory m hm heq
      have hmn := memory.item_injective heq
      omega
    exact h.constitem_set_new hval
      (h.origin.absent hplain hval hnew (hkeys mem))
      (h.origin.absent hplain hval hnew (hitems mem))
      (h.origin'.absent hplain hval hnew (hkeys mem'))
      (h.origin'.absent hplain hval hnew (hitems mem'))
  | true =>
    by_cases hin : val ∈ (T.items .ITEM_CONST).map ConstItem.val
    · obtain ⟨i, hi⟩ := List.getElem?_of_mem hin
      have hi' := hi
      rw [h.vals] at hi'
      rw [List.getElem?_map, Option.map_eq_some_iff] at hi hi'
      obtain ⟨c, hc, hcval⟩ := hi
      obtain ⟨c', hc', hcval'⟩ := hi'
      rw [constitem_set_plain h.alike.wf hplain hc hcval,
        constitem_set_plain h.alike.wf' hplain hc' hcval']
      refine .ok ⟨rfl, h.succ fun f hf => ?_⟩
      rw [(hval f).mpr hf] at hplain
      cases hplain
    · have hin' := hin
      rw [h.vals] at hin'
      have habsent : ∀ (K : List ConstItem), val ∉ K.map ConstItem.val → ∀ addr, ∀ c ∈ K,
          constitem_equal c ⟨addr, val⟩ = false := by
        intro K hnot addr c hc
        by_contra hne
        have hcval := (constitem_equal_plain hplain c addr).mp (by simpa using hne)
        exact hnot (hcval ▸ List.mem_map_of_mem hc)
      exact h.constitem_set_new hval (habsent _ hin _) (habsent _ hin _) (habsent _ hin' _)
        (habsent _ hin' _)

end Twin

/-- Some run of the calls fails no assertion. -/
def Completes (calls : List Add) : Prop :=
  ∃ mem name image, KImage.run mem 0 (KImage_New name) calls = .ok image

/-- No call that is reached adds a float equal to that of an earlier call. -/
def NoEqualFloats (adds : List Add) : Prop := ∀ j, Completes (adds.take j) → NewFloat adds j

/-- The same index was returned, and the tables hold the same values. -/
def TwinAt (mem mem' : Memory) (calls : List Add) (n : Nat) (r r' : Option Int × KImage) : Prop :=
  r.1 = r'.1 ∧ r.2.header = r'.2.header ∧ Twin mem mem' calls n r.2.table r'.2.table

section step

variable {mem mem' : Memory} {calls : List Add} {n : Nat} {image image' : KImage}

theorem withindex_constant_twin {T T' : Table} {val : ConstVal}
    (hheader : image.header = image'.header) (h : Twin mem mem' calls n T T')
    (hval : StoredBy calls n val) (hnew : NewFloat calls n) :
    Agree (TwinAt mem mem' calls (n + 1))
      (withindex (do
        let (index, table) ← constitem_set (mem.key n) (mem.item n) T val
        .ok (index, { image with table })))
      (withindex (do
        let (index, table) ← constitem_set (mem'.key n) (mem'.item n) T' val
        .ok (index, { image' with table }))) := by
  have hset := h.constitem_set hval hnew
  generalize constitem_set (mem.key n) (mem.item n) T val = x at hset ⊢
  generalize constitem_set (mem'.key n) (mem'.item n) T' val = y at hset ⊢
  cases hset with
  | error e => exact .error e
  | ok hab => exact .ok ⟨congrArg some hab.1, hheader, hab.2⟩

theorem storedBy_of_ne {a : Add} {val : ConstVal} (hcall : calls[n]? = some a)
    (ha : ∀ f, a ≠ .Float f) (hval : ∀ f, val ≠ .CONST_FLOAT f) : StoredBy calls n val := by
  intro f
  rw [hcall]
  constructor
  · intro heq
    exact absurd heq (hval f)
  · intro heq
    exact absurd (Option.some.inj heq) (ha f)

/-- A call returns the same in both memories unless it adds a float equal to an
earlier one. -/
theorem KImage.add_twin {a : Add} (hheader : image.header = image'.header)
    (h : Twin mem mem' calls n image.table image'.table) (hcall : calls[n]? = some a)
    (hnew : NewFloat calls n) :
    Agree (TwinAt mem mem' calls (n + 1)) (image.add mem n a) (image'.add mem' n a) := by
  cases ha : stores_const a with
  | false =>
    refine (KImage.add_agree hheader h.alike ha mem mem' n).mono fun r r' hrr => ?_
    refine ⟨hrr.1, hrr.2.1, (h.of_alike hrr.2.2).succ fun f hf => ?_⟩
    rw [hcall] at hf
    cases hf
    cases ha
  | true =>
    cases a with
    | Integer val =>
      exact withindex_constant_twin hheader h (storedBy_of_ne hcall nofun nofun) hnew
    | Float val =>
      refine withindex_constant_twin hheader h (fun f => ?_) hnew
      rw [hcall, Option.some.injEq, Add.Float.injEq, ConstVal.CONST_FLOAT.injEq]
    | Bool val =>
      exact withindex_constant_twin hheader h (storedBy_of_ne hcall nofun nofun) hnew
    | UChar val =>
      exact withindex_constant_twin hheader h (storedBy_of_ne hcall nofun nofun) hnew
    | String val =>
      have hstring := h.alike.StringItem_Set_agree val
      rw [KImage.add, KImage.add, KImage_Add_String, KImage_Add_String]
      generalize StringItem_Set image.table val = x at hstring ⊢
      generalize StringItem_Set image'.table val = y at hstring ⊢
      cases hstring with
      | error e => exact .error e
      | @ok r r' hrr =>
        obtain ⟨idx, T⟩ := r
        obtain ⟨idx', T'⟩ := r'
        obtain ⟨rfl, hT⟩ : idx = idx' ∧ _ := hrr
        rw [ok_bind, ok_bind]
        dsimp only
        split
        · exact withindex_constant_twin hheader (h.of_alike hT)
            (storedBy_of_ne hcall nofun nofun) hnew
        · exact .error _
    | _ => cases ha

end step

theorem twin_new (mem mem' : Memory) (calls : List Add) :
    Twin mem mem' calls 0 AtomTable_New AtomTable_New where
  alike := by
    refine ⟨koala.atomtable.wf_new ItemKind.unique, koala.atomtable.wf_new ItemKind.unique, ?_,
      fun _ _ => rfl, rfl, rfl⟩
    intro i data h
    obtain ⟨n, _, hn, _⟩ := AtomTable_Get_some h
    exact absurd hn (Nat.not_lt_zero n)
  vals := rfl
  origin := fun c hc => nomatch hc
  origin' := fun c hc => nomatch hc
  stored := fun m hm => absurd hm (Nat.not_lt_zero m)

theorem Twin.same_contents {mem mem' : Memory} {calls : List Add} {n : Nat} {T T' : Table}
    (h : Twin mem mem' calls n T T') : SameContents T T' := by
  intro type
  unfold contents
  by_cases htype : type = .ITEM_CONST
  · subst htype
    have hvals := congrArg (List.map fun val => (⟨0, val⟩ : ConstItem)) h.vals
    rwa [List.map_map, List.map_map] at hvals
  · rw [h.alike.items type htype]

/-- How two runs of the same calls end. -/
def TwinEnd (mem mem' : Memory) (calls : List Add)
    (t t' : List (Option Int) × Res KImage) : Prop :=
  t.1 = t'.1 ∧ Agree (fun a b => a.header = b.header ∧
    Twin mem mem' calls calls.length a.table b.table) t.2 t'.2

/-- The calls from the `n`th on do the same in both memories when no equal
floats are added. -/
theorem KImage.trace_twin {mem mem' : Memory} {name : Option CString} {calls adds : List Add}
    (hnew : NoEqualFloats calls) {n : Nat} {image image' : KImage}
    (hadds : calls = calls.take n ++ adds) (hn : n + adds.length = calls.length)
    (hrun : KImage.run mem 0 (KImage_New name) (calls.take n) = .ok image)
    (hheader : image.header = image'.header)
    (h : Twin mem mem' calls n image.table image'.table) :
    TwinEnd mem mem' calls (KImage.trace mem n image adds) (KImage.trace mem' n image' adds) := by
  induction adds generalizing n image image' with
  | nil =>
    obtain rfl : n = calls.length := by simpa using hn
    exact ⟨rfl, .ok ⟨hheader, h⟩⟩
  | cons a adds ih =>
    rw [List.length_cons] at hn
    have hlength : (calls.take n).length = n := by
      rw [List.length_take]
      omega
    have hcall : calls[n]? = some a := by
      rw [hadds, List.getElem?_append_right (by omega), hlength, Nat.sub_self]
      rfl
    have htake : calls.take (n + 1) = calls.take n ++ [a] := by
      rw [List.take_add_one, hcall]
      rfl
    have hadd := KImage.add_twin hheader h hcall (hnew n ⟨mem, name, image, hrun⟩)
    rw [KImage.trace, KImage.trace]
    cases hfirst : image.add mem n a with
    | error e =>
      rw [hfirst] at hadd
      generalize image'.add mem' n a = y at hadd ⊢
      cases hadd
      exact ⟨rfl, .error e⟩
    | ok r =>
      obtain ⟨i, image₁⟩ := r
      rw [hfirst] at hadd
      obtain ⟨⟨i', image₁'⟩, hsecond, hi, hheader₁, h₁⟩ := hadd.exists_ok
      rw [hsecond]
      dsimp only at hi hheader₁ h₁ ⊢
      have hrun₁ : KImage.run mem 0 (KImage_New name) (calls.take (n + 1)) = .ok image₁ := by
        rw [htake, KImage.run_append hrun, hlength, Nat.zero_add, KImage.run, hfirst]
        rfl
      have hadds₁ : calls = calls.take (n + 1) ++ adds := by
        rw [htake, List.append_assoc]
        exact hadds
      obtain ⟨hindices, hend⟩ := ih hadds₁ (by omega) hrun₁ hheader₁ h₁
      exact ⟨by rw [hi, hindices], hend⟩

theorem KImage.run_twin {calls : List Add} (hnew : NoEqualFloats calls) (mem mem' : Memory)
    (name : Option CString) :
    TwinEnd mem mem' calls (KImage.trace mem 0 (KImage_New name) calls)
      (KImage.trace mem' 0 (KImage_New name) calls) :=
  KImage.trace_twin hnew rfl (Nat.zero_add _) rfl rfl (twin_new mem mem' calls)

/-- Without equal floats, all that a run returns and writes is the same in every
memory. -/
theorem outcome_eq {adds : List Add} (h : NoEqualFloats adds) (name : Option CString)
    (mem mem' : Memory) : outcome mem name adds = outcome mem' name adds := by
  obtain ⟨hindices, hend⟩ := KImage.run_twin h mem mem' name
  unfold outcome
  generalize KImage.trace mem 0 (KImage_New name) adds = t at hindices hend ⊢
  generalize KImage.trace mem' 0 (KImage_New name) adds = t' at hindices hend ⊢
  obtain ⟨indices, final⟩ := t
  obtain ⟨indices', final'⟩ := t'
  dsimp only at hindices hend ⊢
  subst hindices
  cases hend with
  | error e => rfl
  | @ok a b hab =>
    obtain ⟨hheader, htwin⟩ := hab
    have hsame := htwin.same_contents
    rw [ok_bind, ok_bind, image_file_congr hheader hsame]
    simp only [Except.map, Outcome.mk.injEq, Except.ok.injEq, true_and, and_true]
    funext type
    exact hsame type

end koala.image
