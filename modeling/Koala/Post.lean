import Koala.Basic

namespace koala

variable {σ α : Type}

/-- The loop of `Vector_ForEach`, whose body may append to the vector: its size is read at
every step. -/
def for_each (items : σ → List α) (body : σ → α → Res σ) : Nat → Nat → σ → Res σ
  | 0, _, _ => .error .fuel
  | fuel + 1, i, s =>
    match (items s)[i]? with
    | none => .ok s
    | some item => do
      let s ← body s item
      for_each items body fuel (i + 1) s

variable {items : σ → List α} {body : σ → α → Res σ} {n : Nat}

/-- The loop comes to the end of a vector that does not grow without bound, and keeps what
the body keeps. -/
theorem for_each_ok (Inv : Nat → σ → Prop)
    (hstep : ∀ i s item, Inv i s → (items s)[i]? = some item →
      ∃ s', body s item = .ok s' ∧ Inv (i + 1) s')
    (hbound : ∀ i s, Inv i s → (items s).length ≤ n) {i : Nat} {s : σ} (hinv : Inv i s) :
    ∃ s' j, (∀ fuel, n - i < fuel → for_each items body fuel i s = .ok s') ∧ Inv j s' ∧
      (items s').length ≤ j := by
  -- on the number of items that may still come
  induction hleft : n - i generalizing i s with
  | zero =>
    have hend : (items s)[i]? = none := by
      rw [List.getElem?_eq_none_iff]
      have hlength := hbound i s hinv
      omega
    refine ⟨s, i, ?_, hinv, List.getElem?_eq_none_iff.mp hend⟩
    intro fuel hfuel
    cases fuel with
    | zero => omega
    | succ fuel => simp only [for_each, hend]
  | succ left ih =>
    cases hitem : (items s)[i]? with
    | none =>
      refine ⟨s, i, ?_, hinv, List.getElem?_eq_none_iff.mp hitem⟩
      intro fuel hfuel
      cases fuel with
      | zero => omega
      | succ fuel => simp only [for_each, hitem]
    | some item =>
      obtain ⟨next, hbody, hnext⟩ := hstep i s item hinv hitem
      obtain ⟨s', j, hrun, hs', hj⟩ := ih hnext (by omega)
      refine ⟨s', j, ?_, hs', hj⟩
      intro fuel hfuel
      cases fuel with
      | zero => omega
      | succ fuel =>
        have hrest := hrun fuel (by omega)
        simp only [for_each, hitem, hbody, ok_bind, hrest]

/-- A loop over a vector that stays as it is keeps what its body keeps. -/
theorem foldlM_ok (Inv : σ → Prop) {l : List α} {s : σ}
    (hstep : ∀ s item, item ∈ l → Inv s → ∃ s', body s item = .ok s' ∧ Inv s') (hinv : Inv s) :
    ∃ s', l.foldlM body s = .ok s' ∧ Inv s' := by
  induction l generalizing s with
  | nil => exact ⟨s, rfl, hinv⟩
  | cons item l ih =>
    obtain ⟨next, hbody, hnext⟩ := hstep s item List.mem_cons_self hinv
    have hrest : ∀ s item, item ∈ l → Inv s → ∃ s', body s item = .ok s' ∧ Inv s' :=
      fun s item hmem => hstep s item (List.mem_cons_of_mem _ hmem)
    obtain ⟨s', hrun, hs'⟩ := ih hrest hnext
    exact ⟨s', by rw [List.foldlM_cons, hbody, ok_bind, hrun], hs'⟩

end koala

namespace koala

section post

variable {α β : Type}

/-- What holds of the result if there is one: a postcondition of partial
correctness. -/
def Post (p : α → Prop) (x : Res α) : Prop := ∀ a, x = .ok a → p a

variable {p q : α → Prop} {x : Res α}

@[simp] theorem post_ok {a : α} : Post p (.ok a : Res α) ↔ p a :=
  ⟨fun h => h a rfl, fun h _ hb => Except.ok.inj hb ▸ h⟩

@[simp] theorem post_error {e : Fault} : Post p (.error e : Res α) ↔ True :=
  ⟨fun _ => trivial, fun _ _ h => nomatch h⟩

theorem Post.ok {a : α} (h : p a) : Post p (.ok a : Res α) := post_ok.mpr h

theorem Post.error {e : Fault} : Post p (.error e : Res α) := post_error.mpr trivial

theorem Post.mono (h : Post p x) (himp : ∀ a, p a → q a) : Post q x :=
  fun a ha => himp a (h a ha)

/-- The rule of sequencing; the value in between is known to be a result. -/
theorem Post.bind {y : Res β} {f : β → Res α} (h : ∀ b, y = .ok b → Post p (f b)) :
    Post p (y >>= f) := by
  intro a ha
  obtain ⟨b, hb, hf⟩ := bind_eq_ok_iff.mp ha
  exact h b hb a hf

theorem Post.ite {c : Prop} [Decidable c] {y : Res α} (hthen : c → Post p x)
    (helse : ¬ c → Post p y) : Post p (if c then x else y) := by
  split
  · next h => exact hthen h
  · next h => exact helse h

end post

section finishes

variable {α β : Type}

/-- A function returns: nothing in it fails. -/
def Finishes (x : Res α) : Prop := ∃ a, x = .ok a

variable {x : Res α}

theorem Finishes.ok (a : α) : Finishes (.ok a : Res α) := ⟨a, rfl⟩

@[simp] theorem not_finishes_error {e : Fault} : ¬ Finishes (.error e : Res α) :=
  fun ⟨_, h⟩ => nomatch h

theorem finishes_bind_iff {f : α → Res β} :
    Finishes (x >>= f) ↔ ∃ a, x = .ok a ∧ Finishes (f a) := by
  constructor
  · rintro ⟨b, hb⟩
    obtain ⟨a, ha, hf⟩ := bind_eq_ok_iff.mp hb
    exact ⟨a, ha, b, hf⟩
  · rintro ⟨a, ha, b, hf⟩
    exact ⟨b, bind_eq_ok_iff.mpr ⟨a, ha, hf⟩⟩

theorem Finishes.bind {f : α → Res β} (h : Finishes x) (hf : ∀ a, x = .ok a → Finishes (f a)) :
    Finishes (x >>= f) := by
  obtain ⟨a, ha⟩ := h
  exact finishes_bind_iff.mpr ⟨a, ha, hf a ha⟩

theorem Finishes.ite {c : Prop} [Decidable c] {y : Res α} (hthen : c → Finishes x)
    (helse : ¬ c → Finishes y) : Finishes (if c then x else y) := by
  split
  · next h => exact hthen h
  · next h => exact helse h

end finishes

variable {α β : Type}

/-- What holds of the result, unless an `int` overflows or a text is read that
was never made: nothing else fails. -/
inductive Safe (p : α → Prop) : Res α → Prop where
  | ok {a : α} (h : p a) : Safe p (.ok a)
  | overflow : Safe p (.error .overflow)
  | null : Safe p (.error .null)

namespace Safe

variable {p q : α → Prop} {x : Res α}

/-- The rule of sequencing; the value in between is known to be a result. -/
theorem bind {r : β → Prop} {f : α → Res β} (h : Safe p x)
    (hf : ∀ a, x = .ok a → p a → Safe r (f a)) : Safe r (x >>= f) := by
  cases h with
  | ok ha => exact hf _ rfl ha
  | overflow => exact .overflow
  | null => exact .null

theorem mono (h : Safe p x) (himp : ∀ a, p a → q a) : Safe q x := by
  cases h with
  | ok ha => exact .ok (himp _ ha)
  | overflow => exact .overflow
  | null => exact .null

theorem of_ok {a : α} (h : Safe p x) (hx : x = .ok a) : p a := by
  subst hx
  cases h with
  | ok ha => exact ha

theorem fault {e : Fault} (h : Safe p x) (hx : x = .error e) : e = .overflow ∨ e = .null := by
  subst hx
  cases h with
  | overflow => exact Or.inl rfl
  | null => exact Or.inr rfl

theorem addInt (a b : Nat) : Safe (· = a + b) (addInt a b) := by
  unfold koala.addInt
  split
  · exact .ok rfl
  · exact .overflow

end Safe

end koala

namespace koala

variable {α β α' β' : Type}

/-- Two results that fail alike, or whose values are related. -/
inductive Agree (R : α → β → Prop) : Res α → Res β → Prop where
  | ok {a : α} {b : β} (h : R a b) : Agree R (.ok a) (.ok b)
  | error (e : Fault) : Agree R (.error e) (.error e)

namespace Agree

variable {R : α → β → Prop} {S : α' → β' → Prop} {x : Res α} {y : Res β}

/-- Related values are passed on to computations that agree on them. -/
theorem bind {f : α → Res α'} {g : β → Res β'} (h : Agree R x y)
    (hfg : ∀ a b, R a b → Agree S (f a) (g b)) : Agree S (x >>= f) (y >>= g) := by
  cases h with
  | ok hab => exact hfg _ _ hab
  | error e => exact .error e

theorem map {f : α → α'} {g : β → β'} (h : Agree R x y) (hfg : ∀ a b, R a b → S (f a) (g b)) :
    Agree S (x.map f) (y.map g) := by
  cases h with
  | ok hab => exact .ok (hfg _ _ hab)
  | error e => exact .error e

theorem mono {R' : α → β → Prop} (h : Agree R x y) (hR : ∀ a b, R a b → R' a b) :
    Agree R' x y := by
  cases h with
  | ok hab => exact .ok (hR _ _ hab)
  | error e => exact .error e

theorem eq {x y : Res α} (h : Agree Eq x y) : x = y := by
  cases h with
  | ok hab => rw [hab]
  | error e => rfl

/-- A value on the left has a partner on the right. -/
theorem exists_ok {a : α} (h : Agree R (.ok a) y) : ∃ b, y = .ok b ∧ R a b := by
  cases h with
  | ok hab => exact ⟨_, rfl, hab⟩

end Agree

end koala
