import Koala.CodeBlock.Heap

open intrusive koala.list koala.parser

namespace koala.codegen.heap

set_option linter.style.nameCheck false

variable {B I : Type}

/-- The size of some instructions. -/
def Heap.size (m : Heap B I) (l : List I) : BitVec 32 := (l.map fun i => (m.inst i).bytes).sum

/-- Every block of `S` has the instructions `f` gives it, in order, and knows
their size. -/
structure Heap.Holds (m : Heap B I) (S : List B) (f : B → List I) : Prop where
  ring : ∀ b ∈ S, m.link.Ring (.inl b) ((f b).map .inr)
  bytes : ∀ b ∈ S, (m.block b).bytes = m.size (f b)

/-- The blocks `chain` follow one another from `b` on. -/
def Heap.Follow (m : Heap B I) : Option B → List B → Prop
  | b, [] => b = none
  | b, c :: chain => b = some c ∧ m.Follow (m.block c).next chain

/-- Blocks differ in nothing but their instructions and their sizes, and
instructions in nothing but their running sizes, those only for `moved`. -/
structure Heap.Moves (m m' : Heap B I) (moved : List I) : Prop where
  next : ∀ b, (m'.block b).next = (m.block b).next
  ret : ∀ b, (m'.block b).ret = (m.block b).ret
  code : ∀ i, (m'.inst i).toInst = (m.inst i).toInst
  bytes : ∀ i, (m'.inst i).bytes = (m.inst i).bytes
  upbytes : ∀ i, i ∉ moved → (m'.inst i).upbytes = (m.inst i).upbytes

/-- The running size of each of the instructions `l` that stand after
`before`. -/
def Heap.Running (m : Heap B I) (before l : List I) : Prop :=
  ∀ done i rest, l = done ++ i :: rest → (m.inst i).upbytes = m.size (before ++ done ++ [i])

section size

variable {m m' : Heap B I}

@[simp] theorem Heap.size_nil : m.size [] = 0 := rfl

@[simp] theorem Heap.size_cons (i : I) (l : List I) :
    m.size (i :: l) = (m.inst i).bytes + m.size l := by
  simp [Heap.size]

theorem Heap.size_append (l r : List I) : m.size (l ++ r) = m.size l + m.size r := by
  simp [Heap.size]

theorem Heap.size_congr_of_mem {l : List I}
    (h : ∀ i ∈ l, (m'.inst i).bytes = (m.inst i).bytes) : m'.size l = m.size l :=
  congrArg List.sum (List.map_congr_left h)

theorem Heap.size_congr (h : ∀ i, (m'.inst i).bytes = (m.inst i).bytes) (l : List I) :
    m'.size l = m.size l := Heap.size_congr_of_mem fun i _ => h i

end size

section frame

variable {m m' m'' : Heap B I}

theorem Heap.Moves.refl (m : Heap B I) : m.Moves m [] :=
  ⟨fun _ => rfl, fun _ => rfl, fun _ => rfl, fun _ => rfl, fun _ _ => rfl⟩

theorem Heap.Moves.trans {l r : List I} (h : m.Moves m' l) (h' : m'.Moves m'' r) :
    m.Moves m'' (l ++ r) := by
  refine ⟨fun b => (h'.next b).trans (h.next b), fun b => (h'.ret b).trans (h.ret b),
    fun i => (h'.code i).trans (h.code i), fun i => (h'.bytes i).trans (h.bytes i), ?_⟩
  intro i hi
  rw [List.mem_append, not_or] at hi
  exact (h'.upbytes i hi.2).trans (h.upbytes i hi.1)

theorem Heap.Moves.follow {l : List I} (h : m.Moves m' l) {b : Option B} {chain : List B}
    (hfollow : m.Follow b chain) : m'.Follow b chain := by
  induction chain generalizing b with
  | nil => exact hfollow
  | cons c chain ih =>
    obtain ⟨hb, hrest⟩ := hfollow
    refine ⟨hb, ?_⟩
    rw [h.next c]
    exact ih hrest

theorem Heap.Moves.size {l : List I} (h : m.Moves m' l) (r : List I) : m'.size r = m.size r :=
  Heap.size_congr h.bytes r

/-- Moving other instructions keeps a running size. -/
theorem Heap.Moves.running {l before r : List I} (h : m.Moves m' l)
    (hrunning : m.Running before r) (hnot : ∀ i ∈ r, i ∉ l) : m'.Running before r := by
  intro done i rest hr
  rw [h.upbytes i (hnot i (by simp [hr])), h.size]
  exact hrunning done i rest hr

theorem Heap.Running.append {before l r : List I} (hl : m.Running before l)
    (hr : m.Running (before ++ l) r) : m.Running before (l ++ r) := by
  intro done i rest heq
  rcases List.append_eq_append_iff.mp heq with ⟨mid, hdone, hmid⟩ | ⟨mid, hl', hmid⟩
  · -- `i` stands in `r`.
    have hup := hr mid i rest hmid
    rw [hup, hdone]
    simp
  · cases mid with
    | nil =>
      have hup := hr [] i rest (by simpa using hmid.symm)
      rw [hup, hl']
      simp
    | cons j mid =>
      obtain ⟨rfl, hrest⟩ := List.cons.inj hmid
      exact hl done i mid hl'

/-- What two blocks of a heap hold is disjoint. -/
theorem Heap.Holds.disjoint {S : List B} {f : B → List I} (h : m.Holds S f) {b c : B}
    (hb : b ∈ S) (hc : c ∈ S) (hne : b ≠ c) : ∀ i ∈ f b, i ∉ f c := by
  intro i hi hic
  refine (h.ring b hb).disjoint (h.ring c hc) ?_ ?_ (.inr i) ?_ ?_
  · simpa using hne
  · simp
  · simpa using hi
  · simpa using hic

end frame

variable [DecidableEq B] [DecidableEq I]

section append

variable {m m' : Heap B I} {S : List B} {f : B → List I} {b : B} {i : I}

/-- A new block is empty. -/
theorem Heap.Holds.CodeBlock_New (h : m.Holds S f) (hb : b ∉ S) :
    (CodeBlock_New m b).Holds (b :: S) (Function.update f b []) := by
  have hne : ∀ c ∈ S, c ≠ b := fun c hc heq => hb (heq ▸ hc)
  have hsize : ∀ l, (koala.codegen.heap.CodeBlock_New m b).size l = m.size l :=
    Heap.size_congr fun _ => rfl
  refine ⟨?_, ?_⟩
  · intro c hc
    rcases List.mem_cons.mp hc with rfl | hc
    · rw [Function.update_self]
      exact init_list_head_ring m.link (.inl c)
    · rw [Function.update_of_ne (hne c hc)]
      exact init_list_head_ring_other (h.ring c hc) (by simpa using Ne.symm (hne c hc))
  · intro c hc
    rw [hsize]
    rcases List.mem_cons.mp hc with rfl | hc
    · simp [koala.codegen.heap.CodeBlock_New]
    · rw [Function.update_of_ne (hne c hc), ← h.bytes c hc]
      simp [koala.codegen.heap.CodeBlock_New, Function.update_of_ne (hne c hc)]

/-- A new instruction is in no block. -/
theorem Heap.Holds.inst_new (h : m.Holds S f) (hfresh : ∀ c ∈ S, i ∉ f c) {op : OpCode}
    {val : Option ConstValue} (hok : inst_new m i op val = .ok m') : m'.Holds S f := by
  obtain ⟨argcount, -, hm'⟩ := bind_eq_ok_iff.mp hok
  cases hm'
  refine ⟨?_, ?_⟩
  · intro c hc
    exact init_list_head_ring_other (h.ring c hc) (by simpa using hfresh c hc)
  · intro c hc
    refine (h.bytes c hc).trans (Heap.size_congr_of_mem fun j hj => ?_)
    have hji : j ≠ i := fun heq => hfresh c hc (heq ▸ hj)
    simp [Function.update_of_ne hji]

theorem Heap.moves_add_last (m : Heap B I) (b : B) (i : I) :
    m.Moves (m.add_last b i) [i] := by
  refine ⟨?_, ?_, ?_, ?_, ?_⟩
  · simp [Heap.add_last]
  · simp [Heap.add_last]
  · simp [Heap.add_last]
  · simp [Heap.add_last]
  · intro j hj
    rw [List.mem_singleton] at hj
    simp [Heap.add_last, Heap.setUpbytes_of_ne _ _ hj]

/-- An instruction in no block goes to the end of one. -/
theorem Heap.Holds.add_last (h : m.Holds S f) (hb : b ∈ S) (hfresh : ∀ c ∈ S, i ∉ f c) :
    (m.add_last b i).Holds S (Function.update f b (f b ++ [i])) := by
  refine ⟨?_, ?_⟩
  · intro c hc
    by_cases hcb : c = b
    · rw [hcb, Function.update_self, List.map_append]
      exact list_add_tail_ring (h.ring b hb) (by simpa using hfresh b hb)
    · rw [Function.update_of_ne hcb]
      refine list_add_tail_ring_other (h.ring b hb) (h.ring c hc) ?_ ?_
      · simpa using hfresh c hc
      · exact (h.ring b hb).disjoint (h.ring c hc) (by simpa using Ne.symm hcb) (by simp)
  · intro c hc
    rw [(m.moves_add_last b i).size]
    by_cases hcb : c = b
    · rw [hcb, Function.update_self, Heap.size_append, ← h.bytes b hb]
      simp [Heap.add_last]
    · rw [Function.update_of_ne hcb, ← h.bytes c hc]
      simp [Heap.add_last, Heap.setBytes_bytes_of_ne _ _ hcb]

/-- It gets the size up to its end. -/
theorem Heap.Holds.running_add_last (h : m.Holds S f) (hb : b ∈ S) :
    (m.add_last b i).Running (f b) [i] := by
  intro done j rest heq
  have hone : done = [] ∧ j = i := by
    cases done with
    | nil => exact ⟨rfl, (List.cons.inj heq).1.symm⟩
    | cons k done => simp at heq
  obtain ⟨rfl, rfl⟩ := hone
  rw [(m.moves_add_last b j).size, List.append_nil, Heap.size_append, ← h.bytes b hb]
  simp [Heap.add_last]

theorem Heap.Holds.Inst_Append (h : m.Holds S f) (hb : b ∈ S) (hfresh : ∀ c ∈ S, i ∉ f c)
    {op : OpCode} {val : Option ConstValue} (hok : Inst_Append m b i op val = .ok m') :
    m'.Holds S (Function.update f b (f b ++ [i])) ∧ m'.Running (f b) [i] := by
  obtain ⟨m₁, hnew, hm'⟩ := bind_eq_ok_iff.mp hok
  cases hm'
  have h₁ := h.inst_new hfresh hnew
  exact ⟨h₁.add_last hb hfresh, h₁.running_add_last hb⟩

end append

section move

variable {m : Heap B I} {S : List B} {f : B → List I} {from_ to_ : B} {i : I} {r : List I}

omit [DecidableEq I] in
/-- The first instruction of a block is in no other place. -/
theorem Heap.Holds.not_mem_first (h : m.Holds S f) (hfrom : from_ ∈ S) (hf : f from_ = i :: r) :
    ∀ b ∈ S, i ∉ Function.update f from_ r b := by
  intro b hb hi
  by_cases hbf : b = from_
  · rw [hbf, Function.update_self] at hi
    have hnodup := (h.ring from_ hfrom).members_nodup
    rw [hf] at hnodup
    exact (List.nodup_cons.mp hnodup).1 (List.mem_map_of_mem hi)
  · rw [Function.update_of_ne hbf] at hi
    exact h.disjoint hb hfrom hbf i hi (by simp [hf])

/-- The first instruction of a block is taken out. -/
theorem Heap.Holds.take_first (h : m.Holds S f) (hfrom : from_ ∈ S) (hf : f from_ = i :: r) :
    ((m.list_del i).setBytes from_ ((m.block from_).bytes - (m.inst i).bytes)).Holds S
      (Function.update f from_ r) := by
  have hsize : ∀ l, ((m.list_del i).setBytes from_
      ((m.block from_).bytes - (m.inst i).bytes)).size l = m.size l :=
    Heap.size_congr fun _ => rfl
  refine ⟨?_, ?_⟩
  · intro b hb
    have hring := h.ring from_ hfrom
    rw [hf, List.map_cons] at hring
    by_cases hbf : b = from_
    · rw [hbf, Function.update_self]
      exact list_del_ring (l := []) hring
    · rw [Function.update_of_ne hbf]
      refine list_del_ring_other hring (h.ring b hb) List.mem_cons_self ?_
      exact hring.disjoint (h.ring b hb) (by simpa using Ne.symm hbf) (by simp)
  · intro b hb
    rw [hsize]
    by_cases hbf : b = from_
    · have hbytes := h.bytes from_ hfrom
      rw [hf, Heap.size_cons] at hbytes
      rw [hbf, Function.update_self]
      simp [hbytes]
    · rw [Function.update_of_ne hbf, ← h.bytes b hb]
      simp [Heap.setBytes_bytes_of_ne _ _ hbf]

/-- One round of the loop takes the first instruction of a block to the end of
another and gives it the size up to its end. -/
theorem Heap.Holds.move (h : m.Holds S f) (hfrom : from_ ∈ S) (hto : to_ ∈ S)
    (hne : from_ ≠ to_) (hf : f from_ = i :: r) :
    (CodeBlock_Merge.move m from_ to_ i).Holds S
        (Function.update (Function.update f from_ r) to_ (f to_ ++ [i])) ∧
      (CodeBlock_Merge.move m from_ to_ i).Running (f to_) [i] := by
  have htake := h.take_first hfrom hf
  have hsame : Function.update f from_ r to_ = f to_ := Function.update_of_ne (Ne.symm hne) r f
  have hadd := htake.add_last hto (h.not_mem_first hfrom hf)
  have hrunning := htake.running_add_last (i := i) hto
  rw [hsame] at hadd hrunning
  exact ⟨hadd, hrunning⟩

theorem Heap.moves_move (m : Heap B I) (from_ to_ : B) (i : I) :
    m.Moves (CodeBlock_Merge.move m from_ to_ i) [i] := by
  have htake : m.Moves ((m.list_del i).setBytes from_
      ((m.block from_).bytes - (m.inst i).bytes)) [] :=
    ⟨by simp, by simp, fun _ => rfl, fun _ => rfl, fun _ _ => rfl⟩
  exact htake.trans (Heap.moves_add_last _ to_ i)

end move

/-- The instructions of each block once those of `from_` stand at the end of
`to_`, block by block. -/
def merged (f : B → List I) (to_ : B) (from_ : List B) : B → List I :=
  fun b => if b = to_ then f to_ ++ from_.flatMap f else if b ∈ from_ then [] else f b

section merged

variable {f : B → List I} {to_ : B} {from_ : List B}

omit [DecidableEq I] in
@[simp] theorem merged_to : merged f to_ from_ to_ = f to_ ++ from_.flatMap f := by
  simp [merged]

omit [DecidableEq I] in
theorem merged_from {b : B} (hb : b ∈ from_) (hne : b ≠ to_) : merged f to_ from_ b = [] := by
  simp [merged, hb, hne]

omit [DecidableEq I] in
theorem merged_other {b : B} (hb : b ∉ from_) (hne : b ≠ to_) : merged f to_ from_ b = f b := by
  simp [merged, hb, hne]

omit [DecidableEq I] in
@[simp] theorem merged_nil : merged f to_ [] = f := by
  funext b
  by_cases hb : b = to_
  · simp [hb]
  · exact merged_other (by simp) hb

omit [DecidableEq I] in
/-- Merging block by block. -/
theorem merged_cons {b : B} (hb : b ∉ from_) (hne : b ≠ to_) (hto : to_ ∉ from_) :
    merged (merged f to_ [b]) to_ from_ = merged f to_ (b :: from_) := by
  have hrest : from_.flatMap (merged f to_ [b]) = from_.flatMap f := by
    refine List.flatMap_congr fun c hc => merged_other ?_ fun heq => hto (heq ▸ hc)
    rw [List.mem_singleton]
    exact fun heq => hb (heq ▸ hc)
  funext c
  by_cases hc : c = to_
  · subst hc
    simp [hrest]
  · by_cases hcb : c = b
    · subst hcb
      rw [merged_other hb hne, merged_from (by simp) hne, merged_from (by simp) hne]
    · by_cases hcf : c ∈ from_
      · rw [merged_from hcf hc, merged_from (by simp [hcf]) hc]
      · rw [merged_other hcf hc, merged_other (by simpa using hcb) hc,
          merged_other (by simp [hcb, hcf]) hc]

omit [DecidableEq I] in
/-- One instruction moves before the others do. -/
theorem merged_move {b : B} (hne : b ≠ to_) {i : I} {r : List I} (hf : f b = i :: r) :
    merged (Function.update (Function.update f b r) to_ (f to_ ++ [i])) to_ [b] =
      merged f to_ [b] := by
  funext c
  by_cases hc : c = to_
  · subst hc
    simp [Function.update_of_ne hne, hf]
  · by_cases hcb : c = b
    · rw [merged_from (by simpa using hcb) hc, merged_from (by simpa using hcb) hc]
    · rw [merged_other (by simpa using hcb) hc, merged_other (by simpa using hcb) hc,
        Function.update_of_ne hc, Function.update_of_ne hcb]

end merged

section run

variable {m : Heap B I} {S : List B} {to_ : B}

/-- The loop over the instructions of a block takes all of them. -/
theorem Heap.Holds.loop {f : B → List I} {from_ : B} (h : m.Holds S f) (hfrom : from_ ∈ S)
    (hto : to_ ∈ S) (hne : from_ ≠ to_) :
    ∃ m', (∀ fuel, (f from_).length ≤ fuel → CodeBlock_Merge.loop from_ to_ fuel m
        (m.link.next (.inl from_)) (m.link.next (m.link.next (.inl from_))) = .ok m') ∧
      m'.Holds S (merged f to_ [from_]) ∧ m.Moves m' (f from_) ∧
      m'.Running (f to_) (f from_) := by
  generalize hl : f from_ = l
  induction l generalizing m f with
  | nil =>
    have hnext := (h.ring from_ hfrom).seg.next_start
    rw [hl, List.map_nil, firstCell_nil] at hnext
    refine ⟨m, ?_, ?_, Heap.Moves.refl m, ?_⟩
    · intro fuel _
      rw [hnext]
      cases fuel <;> simp [CodeBlock_Merge.loop]
    · have hsame : merged f to_ [from_] = f := by
        funext b
        by_cases hb : b = to_
        · simp [hb, hl]
        · by_cases hbf : b = from_
          · rw [merged_from (by simpa using hbf) hb, hbf, hl]
          · exact merged_other (by simpa using hbf) hb
      rwa [hsame]
    · intro done i rest heq
      simp at heq
  | cons i r ih =>
    obtain ⟨hmove, hlast⟩ := h.move hfrom hto hne hl
    have hfirst := Heap.moves_move m from_ to_ i
    obtain ⟨m', hrun, hholds, hmoves, hrunning⟩ := ih hmove
      (by rw [Function.update_of_ne hne, Function.update_self])
    -- The next instruction was read before this one moved.
    have hring := (h.ring from_ hfrom).seg
    rw [hl, List.map_cons, Links.seg_cons] at hring
    have hnext := (hmove.ring from_ hfrom).seg.next_start
    rw [Function.update_of_ne hne, Function.update_self, ← hring.2.2.next_start] at hnext
    refine ⟨m', ?_, ?_, hfirst.trans hmoves, ?_⟩
    · intro fuel hfuel
      cases fuel with
      | zero => simp at hfuel
      | succ fuel =>
        have hrec := hrun fuel (by simpa using hfuel)
        rw [hnext] at hrec
        rw [hring.1]
        exact hrec
    · rwa [merged_move hne hl] at hholds
    · have hnot : ∀ j ∈ [i], j ∉ r := by
        have hnodup := (h.ring from_ hfrom).members_nodup
        rw [hl] at hnodup
        intro j hj hjr
        rw [List.mem_singleton] at hj
        exact (List.nodup_cons.mp hnodup).1 (List.mem_map_of_mem (hj ▸ hjr))
      rw [Function.update_self] at hrunning
      exact (hmoves.running hlast hnot).append hrunning

/-- The assertion after the loop holds. -/
theorem Heap.Holds.one {f : B → List I} {from_ : B} (h : m.Holds S f) (hfrom : from_ ∈ S)
    (hto : to_ ∈ S) (hne : from_ ≠ to_) :
    ∃ m', (∀ fuel, (f from_).length ≤ fuel → CodeBlock_Merge.one fuel m from_ to_ = .ok m') ∧
      m'.Holds S (merged f to_ [from_]) ∧ m.Moves m' (f from_) ∧
      m'.Running (f to_) (f from_) := by
  obtain ⟨m', hrun, hholds, hmoves, hrunning⟩ := h.loop hfrom hto hne
  refine ⟨m', ?_, hholds, hmoves, hrunning⟩
  intro fuel hfuel
  have hbytes := hholds.bytes from_ hfrom
  rw [merged_from (by simp) hne, Heap.size_nil] at hbytes
  simp [CodeBlock_Merge.one, hrun fuel hfuel, hbytes]

theorem Heap.Holds.rest {f : B → List I} {b : Option B} {chain : List B} (h : m.Holds S f)
    (hfollow : m.Follow b chain) (hto : to_ ∈ S) (hin : ∀ c ∈ chain, c ∈ S)
    (hnodup : (to_ :: chain).Nodup) :
    ∃ m', (∀ fuel blocks, (∀ c ∈ chain, (f c).length ≤ fuel) → chain.length ≤ blocks →
        CodeBlock_Merge.rest fuel to_ blocks m b = .ok m') ∧
      m'.Holds S (merged f to_ chain) ∧ m.Moves m' (chain.flatMap f) ∧
      m'.Running (f to_) (chain.flatMap f) := by
  induction chain generalizing m f b with
  | nil =>
    have hb : b = none := hfollow
    subst hb
    refine ⟨m, ?_, by rwa [merged_nil], Heap.Moves.refl m, ?_⟩
    · intro fuel blocks _ _
      cases blocks <;> rfl
    · intro done i rest heq
      simp at heq
  | cons c chain ih =>
    obtain ⟨hb, hrest⟩ := hfollow
    subst hb
    simp only [List.nodup_cons, List.mem_cons, not_or] at hnodup
    obtain ⟨⟨hne, htochain⟩, hc, hchain⟩ := hnodup
    have hcS := hin c List.mem_cons_self
    obtain ⟨m₁, hrun₁, hholds₁, hmoves₁, hrunning₁⟩ := h.one hcS hto (Ne.symm hne)
    have hrest' : ∀ d ∈ chain, merged f to_ [c] d = f d := by
      intro d hd
      refine merged_other ?_ fun heq => htochain (heq ▸ hd)
      rw [List.mem_singleton]
      exact fun heq => hc (heq ▸ hd)
    have hflat : chain.flatMap (merged f to_ [c]) = chain.flatMap f := List.flatMap_congr hrest'
    have hfollow₁ := hmoves₁.follow hrest
    rw [← hmoves₁.next c] at hfollow₁
    obtain ⟨m', hrun, hholds, hmoves, hrunning⟩ := ih hholds₁ hfollow₁
      (fun d hd => hin d (List.mem_cons_of_mem c hd)) (List.nodup_cons.mpr ⟨htochain, hchain⟩)
    rw [merged_cons hc (Ne.symm hne) htochain] at hholds
    rw [hflat] at hmoves hrunning
    rw [merged_to, List.flatMap_singleton] at hrunning
    refine ⟨m', ?_, hholds, hmoves₁.trans hmoves, ?_⟩
    · intro fuel blocks hfuel hblocks
      cases blocks with
      | zero => simp at hblocks
      | succ blocks =>
        have hone := hrun₁ fuel (hfuel c List.mem_cons_self)
        have hrec := hrun fuel blocks (fun d hd => by
          rw [hrest' d hd]
          exact hfuel d (List.mem_cons_of_mem c hd)) (by simpa using hblocks)
        simp [CodeBlock_Merge.rest, hone, hrec]
    · have hnot : ∀ i ∈ f c, i ∉ chain.flatMap f := by
        intro i hi hmem
        obtain ⟨d, hd, hid⟩ := List.mem_flatMap.mp hmem
        exact h.disjoint hcS (hin d (List.mem_cons_of_mem c hd)) (fun heq => hc (heq ▸ hd)) i hi hid
      exact (hmoves.running hrunning₁ hnot).append hrunning

end run

/-- `CodeBlock_Merge` returns. The target then holds its instructions followed
by those of the source and of the blocks that follow it, which are left empty;
the sizes are right, and each instruction moved has the size up to its end. -/
theorem CodeBlock_Merge_spec {m : Heap B I} {from_ to_ : B} {chain : List B} {f : B → List I}
    (hholds : m.Holds (to_ :: from_ :: chain) f)
    (hfollow : m.Follow (m.block from_).next chain) (hnodup : (to_ :: from_ :: chain).Nodup) :
    ∃ m', (∀ fuel, ((from_ :: chain).flatMap f).length + chain.length ≤ fuel →
        CodeBlock_Merge fuel m from_ to_ = .ok m') ∧
      m'.Holds (to_ :: from_ :: chain) (merged f to_ (from_ :: chain)) ∧
      m'.Running (f to_) ((from_ :: chain).flatMap f) ∧
      m.Moves m' ((from_ :: chain).flatMap f) := by
  have hchain : m.Follow (some from_) (from_ :: chain) := ⟨rfl, hfollow⟩
  obtain ⟨m', hrun, hm', hmoves, hrunning⟩ := hholds.rest hchain List.mem_cons_self
    (fun c hc => List.mem_cons_of_mem to_ hc) hnodup
  refine ⟨m', ?_, hm', hrunning, hmoves⟩
  intro fuel hfuel
  -- The source is the first block of the chain.
  have hall := hrun fuel (fuel + 1) ?_ ?_
  · exact hall
  · intro c hc
    obtain ⟨before, after, heq⟩ := List.append_of_mem hc
    rw [heq, List.flatMap_append, List.flatMap_cons, List.length_append, List.length_append]
      at hfuel
    omega
  · simp only [List.length_cons]
    omega

/-- Three blocks of one instruction each. -/
def three : Heap (Fin 3) (Fin 3) where
  link := ⟨Sum.swap, Sum.swap⟩
  inst := fun _ => ⟨⟨.ADD, none, 0⟩, 1, 1⟩
  block := fun b => ⟨1, if b = 1 then some 2 else none, false⟩

theorem three_holds : three.Holds [0, 1, 2] fun b => [b] :=
  ⟨fun _ _ => ⟨⟨rfl, rfl, rfl, rfl⟩, by simp⟩, fun _ _ => rfl⟩

theorem CodeBlock_Merge_spec_three :
    ∃ m', (∀ fuel, 3 ≤ fuel → CodeBlock_Merge fuel three 1 0 = .ok m') ∧
      m'.Holds [0, 1, 2] (merged (fun b => [b]) 0 [1, 2]) ∧ m'.Running [0] [1, 2] ∧
      three.Moves m' [1, 2] :=
  CodeBlock_Merge_spec three_holds ⟨rfl, rfl⟩ (by decide)

/-- The instructions of a block, without their sizes. -/
def Heap.code (m : Heap B I) (l : List I) : List koala.parser.Inst :=
  l.map fun i => (m.inst i).toInst

/-- Merging blocks of instructions in memory is merging lists of
instructions. -/
theorem CodeBlock_Merge_refines {m : Heap B I} {from_ to_ : B} {f : B → List I}
    (hholds : m.Holds [to_, from_] f) (hnext : (m.block from_).next = none) (hne : to_ ≠ from_)
    (ret ret' : Bool) :
    ∃ m' l, (∀ fuel, (f from_).length ≤ fuel → CodeBlock_Merge fuel m from_ to_ = .ok m') ∧
      m'.link.Ring (.inl to_) (l.map .inr) ∧
      ⟨m'.code l, ret⟩ = koala.parser.CodeBlock_Merge ⟨m.code (f from_), ret'⟩
        ⟨m.code (f to_), ret⟩ := by
  have hfollow : m.Follow (m.block from_).next [] := hnext
  obtain ⟨m', hrun, hm', _, hmoves⟩ := CodeBlock_Merge_spec hholds hfollow (by simpa using hne)
  have hring := hm'.ring to_ List.mem_cons_self
  rw [merged_to] at hring
  refine ⟨m', _, ?_, hring, ?_⟩
  · simpa using hrun
  · simp [koala.parser.CodeBlock_Merge, Heap.code, hmoves.code]

end koala.codegen.heap
