import Koala.Ast.Faults

open koala.parser koala.typedesc

namespace koala.ast

set_option linter.style.nameCheck false

/-- The statements of a module are built and released without a fault, no
descriptor is freed meanwhile, and each count is what it has to be with the
references that are held elsewhere, as before. -/
def Balances (extstbl : List CString) (m : List grammar.ModuleStatement) : Prop :=
  ∀ (s : Descs) (held : List TypeDesc) (st : State), Counted s held → st.mem.changes = [] →
    (∀ a ∈ st.mem.freed, a < st.mem.next) →
      ∃ stmts st' st'' s', grammar.build_module extstbl m st = .ok (stmts, st') ∧
        release_module stmts st' = .ok st'' ∧ play st''.mem.changes s = .ok s' ∧
          Grows s s' ∧ Counted s' held

section exists_

variable {s : Descs} {held : List TypeDesc}

mutual

/-- A type is found or made with its components. -/
theorem Counted.interned (t : TypeDesc) {s : Descs} (h : Counted s held) :
    ∃ s', Counted s' held ∧ Grows s s' ∧ t ∈ s'.table := by
  cases t with
  | base type => exact ⟨s, h, .refl s, h.basic type⟩
  | klass path type =>
    obtain ⟨s', -, hrest⟩ := @Counted.get s held (.klass path type) h nofun
    exact ⟨s', hrest⟩
  | proto arg ret =>
    obtain ⟨s₁, h₁, hgrows₁, harg⟩ := Counted.interned_list arg h
    obtain ⟨s₂, h₂, hgrows₂, hret⟩ := Counted.interned_list ret h₁
    obtain ⟨s₃, -, h₃, hgrows₃, ht⟩ := @Counted.get s₂ held (.proto arg ret) h₂ fun p hp =>
      (List.mem_append.mp hp).elim (fun hp => hgrows₂.mem (harg p hp)) (hret p)
    exact ⟨s₃, h₃, (hgrows₁.trans hgrows₂).trans hgrows₃, ht⟩
  | array dims base =>
    obtain ⟨s₁, h₁, hgrows₁, hbase⟩ := Counted.interned base h
    obtain ⟨s₂, -, h₂, hgrows₂, ht⟩ := @Counted.get s₁ held (.array dims base) h₁
      (List.forall_mem_singleton.mpr hbase)
    exact ⟨s₂, h₂, hgrows₁.trans hgrows₂, ht⟩
  | map key val =>
    obtain ⟨s₁, h₁, hgrows₁, hkey⟩ := Counted.interned key h
    obtain ⟨s₂, h₂, hgrows₂, hval⟩ := Counted.interned val h₁
    obtain ⟨s₃, -, h₃, hgrows₃, ht⟩ := @Counted.get s₂ held (.map key val) h₂
      (List.forall_mem_cons.mpr ⟨hgrows₂.mem hkey, List.forall_mem_singleton.mpr hval⟩)
    exact ⟨s₃, h₃, (hgrows₁.trans hgrows₂).trans hgrows₃, ht⟩
  | set base =>
    obtain ⟨s₁, h₁, hgrows₁, hbase⟩ := Counted.interned base h
    obtain ⟨s₂, -, h₂, hgrows₂, ht⟩ := @Counted.get s₁ held (.set base) h₁
      (List.forall_mem_singleton.mpr hbase)
    exact ⟨s₂, h₂, hgrows₁.trans hgrows₂, ht⟩
  | varg base =>
    obtain ⟨s₁, h₁, hgrows₁, hbase⟩ := Counted.interned base h
    obtain ⟨s₂, -, h₂, hgrows₂, ht⟩ := @Counted.get s₁ held (.varg base) h₁
      (List.forall_mem_singleton.mpr hbase)
    exact ⟨s₂, h₂, hgrows₁.trans hgrows₂, ht⟩

theorem Counted.interned_list (vec : List TypeDesc) {s : Descs} (h : Counted s held) :
    ∃ s', Counted s' held ∧ Grows s s' ∧ ∀ t ∈ vec, t ∈ s'.table := by
  cases vec with
  | nil => exact ⟨s, h, .refl s, List.forall_mem_nil _⟩
  | cons t vec =>
    obtain ⟨s₁, h₁, hgrows₁, ht⟩ := Counted.interned t h
    obtain ⟨s₂, h₂, hgrows₂, hvec⟩ := Counted.interned_list vec h₁
    exact ⟨s₂, h₂, hgrows₁.trans hgrows₂, List.forall_mem_cons.mpr ⟨hgrows₂.mem ht, hvec⟩⟩

end

/-- The descriptors before anything is parsed. -/
def basics : Descs where
  table := [.base .BASE_BYTE, .base .BASE_CHAR, .base .BASE_INT, .base .BASE_FLOAT,
    .base .BASE_BOOL, .base .BASE_STRING, .base .BASE_ERROR, .base .BASE_ANY]
  refcnt _ := 1
  freed := []

theorem basics_counted : Counted basics [] where
  nodup := by decide
  count t ht := by
    have hparts : basics.table.flatMap parts = [] := rfl
    rw [hparts]
    rfl
  held_mem t ht := nomatch ht
  parts_mem t ht p hp := by
    have hparts : basics.table.flatMap parts = [] := rfl
    have hmem := List.mem_flatMap.mpr ⟨t, ht, hp⟩
    rw [hparts] at hmem
    cases hmem
  basic type := by cases type <;> decide

/-- Any references can be held. -/
theorem exists_counted (held : List TypeDesc) : ∃ s, Counted s held := by
  induction held with
  | nil => exact ⟨basics, basics_counted⟩
  | cons t held ih =>
    obtain ⟨s, h⟩ := ih
    obtain ⟨s', h', -, ht⟩ := h.interned t
    exact ⟨s'.raise t, h'.incref ht⟩

/-- What is held is determined by the counts. -/
theorem Counted.held_nil (h : Counted s held) (hnil : Counted s []) : held = [] := by
  cases held with
  | nil => rfl
  | cons t held =>
    have hmem := h.held_mem t List.mem_cons_self
    have hcount := (h.count t hmem).symm.trans (hnil.count t hmem)
    rw [List.count_cons_self, List.count_nil] at hcount
    omega

end exists_

section balances

variable {extstbl : List CString} {m : List grammar.ModuleStatement} {s : Descs}
  {held : List TypeDesc} {st : State}

/-- A module is built and released; what is given back without having been taken is
not held any more. -/
theorem build_release (hdefined : grammar.Defined_module extstbl m)
    (h : Counted s (grammar.over_module extstbl m ++ held)) (hchanges : st.mem.changes = [])
    (hfreed : ∀ a ∈ st.mem.freed, a < st.mem.next) :
    ∃ stmts st' st'' s', grammar.build_module extstbl m st = .ok (stmts, st') ∧
      release_module stmts st' = .ok st'' ∧ play st''.mem.changes s = .ok s' ∧
        Grows s s' ∧ Counted s' held := by
  have hholds : Holds s st s (grammar.over_module extstbl m ++ held) [] := by
    refine ⟨?_, .refl s, h, ⟨List.nodup_nil, nofun, nofun, hfreed⟩⟩
    rw [hchanges]
    rfl
  obtain ⟨stmts, st', s₁, hbuild, -, h₁, -⟩ := grammar.build_module_holds m hholds hdefined
  obtain ⟨s₂, h₂, -⟩ := h₁.released
  exact ⟨stmts, st', _, s₂, hbuild, State.free_ok (Free_Stmts_frees _) h₁.owned.left, h₂.run,
    h₂.grows, h₂.counted⟩

/-- What a module does with the descriptors that are there first. -/
def run (m : List grammar.ModuleStatement) : Res Descs := do
  let ⟨stmts, st⟩ ← grammar.build_module [] m ⟨⟨0, [], []⟩, []⟩
  let st ← release_module stmts st
  play st.mem.changes basics

theorem Balances.run_eq (h : Balances [] m) : ∃ s', run m = .ok s' ∧ s'.freed = [] := by
  obtain ⟨stmts, st', st'', s', hbuild, hrelease, hplay, hgrows, -⟩ :=
    h basics [] ⟨⟨0, [], []⟩, []⟩ basics_counted rfl nofun
  refine ⟨s', ?_, hgrows.freed⟩
  rw [run, hbuild, ok_bind]
  dsimp only
  rw [hrelease, ok_bind]
  exact hplay

def name_a : Ident := ⟨⟨['a'.toUInt8], by decide⟩, ⟨1, 1⟩⟩

end balances

end koala.ast
