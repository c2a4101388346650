import Koala.Object.Hierarchy

open koala.merge koala.typedesc Relation

namespace koala.object

set_option linter.style.nameCheck false

/-- The offsets of every order sum up the fields that the classes have now. -/
def Laid (ks : Klasses) : Prop :=
  ∀ (n : Nat) klazz, ks[n]? = some klazz →
    klazz.lro = nodes (nrvars ks) 0 (order klazz.lro)

section offsets

variable {hist : List (List Nat)} {ks ks' : Klasses}

/-- The fields of the class itself do not matter for its order. -/
theorem LineOrder.nodes_congr {n : Nat} {l : List KlassPtr} (hl : LineOrder hist n l)
    {size size' : KlassPtr → Nat}
    (h : ∀ c, Ancestor hist c (.new n) → size c = size' c) : nodes size 0 l = nodes size' 0 l := by
  obtain ⟨pre, rfl⟩ := List.getLast?_eq_some_iff.mp hl.last
  refine koala.object.nodes_congr (fun c hc => h c ?_) 0
  rcases (hl.mem_iff c).mp (List.mem_append_left _ hc) with rfl | hanc
  · have hnot := List.nodup_append.mp hl.nodup |>.2.2 _ hc _ (List.mem_singleton_self _)
    exact absurd rfl hnot
  · exact hanc

theorem lines_get {n : Nat} {klazz : Klass} (h : ks[n]? = some klazz) :
    (lines ks)[n]? = some (order klazz.lro) := by
  rw [lines, List.getElem?_map, h, Option.map_some]

theorem nrvars_append (k : Klass) {n : Nat} (hn : n < ks.length) :
    nrvars (ks ++ [k]) (.new n) = nrvars ks (.new n) := by
  rw [nrvars, nrvars, List.getElem?_append_left hn]

/-- No ancestor of an old class is new. -/
theorem Ordering.nrvars_append (h : Ordering hist (lines ks)) (k : Klass) {n : Nat}
    (hn : n < ks.length) {c : KlassPtr} (hc : Ancestor hist c (.new n)) :
    nrvars (ks ++ [k]) c = nrvars ks c := by
  have hks : ks.length = hist.length := by rw [← h.length, lines, List.length_map]
  cases c with
  | Any_Klass => rfl
  | new m =>
    have hlt := ancestor_lt h.closed (hks ▸ hn) hc
    exact koala.object.nrvars_append k (hlt.trans hn)

theorem Laid.Klass_New (hlaid : Laid ks) (h : Ordering hist (lines ks)) {name : CString}
    {bases : List Nat} (hnew : koala.object.Klass_New ks name bases = .ok ks') : Laid ks' := by
  have h' := h.Klass_New hnew
  obtain ⟨orders, klazz, horders, rfl, hlro⟩ := Klass_New_ok hnew
  have hks : ks.length = hist.length := by rw [← h.length, lines, List.length_map]
  intro n k hget
  rcases getElem?_concat_cases hget with ⟨hlt, hold⟩ | ⟨rfl, rfl⟩
  · have hline := h.line n _ (lines_get hold)
    rw [hline.nodes_congr fun c hc => h.nrvars_append klazz hlt hc]
    exact hlaid n k hold
  · have hline := h'.line _ _ (lines_get hget)
    have hcongr : nodes (nrvars (ks ++ [k])) 0 (order k.lro) =
        nodes (nrvars ks) 0 (order k.lro) := hline.nodes_congr fun c hc => ?_
    · rw [hcongr, hlro]
      exact lro_build_nodes _ _
    · cases c with
      | Any_Klass => rfl
      | new m =>
        have hlt := ancestor_lt h'.closed (by simp [hks]) hc
        exact koala.object.nrvars_append k hlt

theorem not_ancestor_of_not_base {c : Nat} (h : ∀ bases ∈ hist, c ∉ bases) (d : KlassPtr) :
    ¬ Ancestor hist (.new c) d := by
  intro hanc
  obtain ⟨e, hparent, _⟩ := TransGen.head'_iff.mp hanc
  obtain ⟨n, bases, hn, _, heq | ⟨b, hb, heq⟩⟩ := hparent
  · cases heq
  · cases heq
    exact h bases (List.mem_of_getElem? hn) hb

theorem Laid.Klass_Add_Field (hlaid : Laid ks) (h : Ordering hist (lines ks)) {c : Nat}
    {name : CString} {desc : TypeDesc} (hbase : ∀ bases ∈ hist, c ∉ bases)
    (hadd : koala.object.Klass_Add_Field ks c name desc = .ok ks') : Laid ks' := by
  unfold koala.object.Klass_Add_Field at hadd
  split at hadd
  · cases hadd
  · next k hk =>
    cases hadd
    intro n klazz hget
    obtain ⟨klazz₀, hget₀, hlro⟩ : ∃ klazz₀, ks[n]? = some klazz₀ ∧ klazz.lro = klazz₀.lro := by
      by_cases hn : n = c
      · subst hn
        rw [List.getElem?_set_self (List.getElem?_eq_some_iff.mp hk).1] at hget
        cases hget
        exact ⟨k, hk, rfl⟩
      · rw [List.getElem?_set_ne (Ne.symm hn)] at hget
        exact ⟨klazz, hget, rfl⟩
    have hline := h.line n _ (lines_get hget₀)
    rw [hlro]
    refine (hlaid n klazz₀ hget₀).trans (hline.nodes_congr fun d hd => ?_)
    cases d with
    | Any_Klass => rfl
    | new m =>
      have hne : c ≠ m := by
        rintro rfl
        exact not_ancestor_of_not_base hbase _ hd
      rw [nrvars, nrvars, List.getElem?_set_ne hne]

end offsets

/-- What holds after some calls. -/
structure Resolved (calls : List Call) (ks : Klasses) : Prop where
  ordering : Ordering (given calls) (lines ks)
  laid : Settled calls → Laid ks

section run

variable {calls : List Call} {ks ks' : Klasses}

theorem Settled.of_append {call : Call} (h : Settled (calls ++ [call])) : Settled calls :=
  fun pre klazz name desc post heq => h pre klazz name desc (post ++ [call]) (by
    rw [heq, List.append_assoc, List.cons_append])

theorem Resolved.step {call : Call} (h : Resolved calls ks) (hcall : call.run ks = .ok ks') :
    Resolved (calls ++ [call]) ks' := by
  cases call with
  | Klass_New name bases =>
    have hgiven : given (calls ++ [.Klass_New name bases]) = given calls ++ [bases] :=
      List.filterMap_append
    refine ⟨?_, fun hsettled => ?_⟩
    · rw [hgiven]
      exact h.ordering.Klass_New hcall
    · exact (h.laid hsettled.of_append).Klass_New h.ordering hcall
  | Klass_Add_Field klazz name desc =>
    have hgiven : given (calls ++ [.Klass_Add_Field klazz name desc]) = given calls := by
      rw [given, List.filterMap_append]
      exact List.append_nil _
    refine ⟨?_, fun hsettled => ?_⟩
    · rw [hgiven, lines_add_field hcall]
      exact h.ordering
    · have hbase := hsettled calls klazz name desc [] rfl
      exact (h.laid hsettled.of_append).Klass_Add_Field h.ordering hbase hcall

theorem Resolved.run {rest : List Call} (h : Resolved calls ks)
    (hrun : koala.object.run ks rest = .ok ks') : Resolved (calls ++ rest) ks' := by
  induction rest generalizing calls ks with
  | nil =>
    cases hrun
    rwa [List.append_nil]
  | cons call rest ih =>
    obtain ⟨ks₁, hcall, hrun⟩ := bind_eq_ok_iff.mp hrun
    have hall := ih (h.step hcall) hrun
    rwa [List.append_assoc] at hall

theorem resolved_nil : Resolved [] [] := by
  refine ⟨ordering_nil, fun _ => ?_⟩
  intro n klazz hget
  simp at hget

/-- A call whose classes are there returns. -/
theorem Call.run_total {call : Call} (h : ∀ klazz ∈ call.klasses, klazz < ks.length) :
    ∃ ks', call.run ks = .ok ks' ∧ ks'.length = ks.length + (given [call]).length := by
  cases call with
  | Klass_New name bases =>
    obtain ⟨orders, horders⟩ : ∃ orders, base_orders ks bases = .ok orders := base_orders_total h
    refine ⟨_, by rw [Call.run, koala.object.Klass_New, horders, ok_bind], ?_⟩
    rw [List.length_append]
    rfl
  | Klass_Add_Field klazz name desc =>
    obtain ⟨k, hget⟩ : ∃ k, ks[klazz]? = some k :=
      ⟨_, List.getElem?_eq_getElem (h klazz (List.mem_singleton_self klazz))⟩
    refine ⟨_, by rw [Call.run, koala.object.Klass_Add_Field, hget], ?_⟩
    rw [List.length_set]
    rfl

theorem run_total (h : Built ks.length calls) : ∃ ks', koala.object.run ks calls = .ok ks' := by
  induction calls generalizing ks with
  | nil => exact ⟨ks, rfl⟩
  | cons call calls ih =>
    obtain ⟨hcall, hcalls⟩ := h
    obtain ⟨ks₁, hrun, hlength⟩ := Call.run_total hcall
    obtain ⟨ks', hrest⟩ := ih (hlength ▸ hcalls)
    exact ⟨ks', by rw [koala.object.run, hrun, ok_bind, hrest]⟩

end run

/-- For every hierarchy of classes, each built on classes built before: the
order of a class starts with `Any`, ends with the class, holds exactly its
ancestors beside it, once each and after their own ancestors, and the order of
its first base comes first. The offsets agree there too as long as no field is
added to a class that is already a base. -/
theorem Klass_New_lro {calls : List Call} (hbuilt : Built 0 calls) :
    ∃ ks, run [] calls = .ok ks ∧ ks.length = (given calls).length ∧
      ∀ (n : Nat) klazz, ks[n]? = some klazz →
        LineOrder (given calls) n (order klazz.lro) ∧
        ∀ base rest, (given calls)[n]? = some (base :: rest) →
          ∃ kb : Klass, ks[base]? = some kb ∧ order kb.lro <+: order klazz.lro ∧
            (Settled calls → kb.lro <+: klazz.lro) := by
  obtain ⟨ks, hrun⟩ : ∃ ks, run [] calls = .ok ks := run_total hbuilt
  have h : Resolved calls ks := resolved_nil.run hrun
  refine ⟨ks, hrun, ?_, fun n klazz hget => ⟨h.ordering.line n _ (lines_get hget), ?_⟩⟩
  · rw [← h.ordering.length, lines, List.length_map]
  · intro base rest hgiven
    obtain ⟨lb, hlb, herrs⟩ := h.ordering.base n _ base rest (lines_get hget) hgiven
    rw [lines, List.getElem?_map] at hlb
    obtain ⟨kb, hkb, rfl⟩ := Option.map_eq_some_iff.mp hlb
    refine ⟨kb, hkb, herrs, fun hsettled => ?_⟩
    rw [h.laid hsettled n klazz hget, h.laid hsettled base kb hkb]
    exact nodes_prefix herrs 0

section instances

def letter (c : Char) (h : c.toUInt8 ≠ 0) : CString := ⟨[c.toUInt8], by simpa using h.symm⟩

theorem A_ne_zero : 'A'.toUInt8 ≠ 0 := by decide

theorem B_ne_zero : 'B'.toUInt8 ≠ 0 := by decide

theorem C_ne_zero : 'C'.toUInt8 ≠ 0 := by decide

theorem D_ne_zero : 'D'.toUInt8 ≠ 0 := by decide

theorem E_ne_zero : 'E'.toUInt8 ≠ 0 := by decide

/-- `A`, `B` over `A`, `C` over `B`, `D` over `A`, `E` over `A`, `D`, `C`, `B`. -/
def traits : List Call :=
  [.Klass_New (letter 'A' A_ne_zero) [], .Klass_New (letter 'B' B_ne_zero) [0],
    .Klass_New (letter 'C' C_ne_zero) [1], .Klass_New (letter 'D' D_ne_zero) [0],
    .Klass_New (letter 'E' E_ne_zero) [0, 3, 2, 1]]

example : (run [] traits).map lines = .ok
    [[.Any_Klass, .new 0], [.Any_Klass, .new 0, .new 1], [.Any_Klass, .new 0, .new 1, .new 2],
      [.Any_Klass, .new 0, .new 3],
      [.Any_Klass, .new 0, .new 3, .new 1, .new 2, .new 4]] := by
  decide

theorem traits_built : Built 0 traits := by
  simp [traits, Built, Call.klasses, given, Call.bases?]

theorem Klass_New_lro_traits : Built 0 traits ∧ ∃ ks, run [] traits = .ok ks ∧
    ∀ klazz, ks[4]? = some klazz → LineOrder (given traits) 4 (order klazz.lro) := by
  obtain ⟨ks, hrun, _, hall⟩ := Klass_New_lro traits_built
  exact ⟨traits_built, ks, hrun, fun klazz hget => (hall 4 klazz hget).1⟩

end instances

end koala.object
