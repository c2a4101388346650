import Koala.Merge
import Koala.Object.Klass
import Mathlib.Logic.Relation

open koala.merge koala.typedesc Relation

namespace koala.object

set_option linter.style.nameCheck false

/-- The classes of a line resolution order. -/
def order (lro : List LRONode) : List KlassPtr := lro.map LRONode.klazz

section build

variable {ks : Klasses}

theorem lro_find_iff {lro : List LRONode} {klazz : KlassPtr} :
    lro_find lro klazz = true ↔ klazz ∈ order lro := by
  simp [lro_find, order]

theorem Line.order_append (line : Line) (klazz : KlassPtr) :
    order (line.append ks klazz).lro = order line.lro ++ [klazz] := by
  simp [Line.append, order]

theorem Line.order_add (line : Line) (node : LRONode) :
    order (line.add ks node).lro = insertNew (order line.lro) node.klazz := by
  unfold Line.add insertNew
  by_cases h : node.klazz ∈ order line.lro
  · rw [if_pos (lro_find_iff.mpr h), if_pos h]
  · rw [if_neg (mt lro_find_iff.mp h), if_neg h, Line.order_append]

theorem Line.order_foldl_add (line : Line) (base : List LRONode) :
    order (base.foldl (Line.add ks) line).lro = (order base).foldl insertNew (order line.lro) := by
  induction base generalizing line with
  | nil => rfl
  | cons node base ih =>
    rw [List.foldl_cons, ih, Line.order_add]
    rfl

theorem Line.order_foldl (line : Line) (bases : List (List LRONode)) :
    order (bases.foldl (fun line base => base.foldl (Line.add ks) line) line).lro =
      mergeAll (order line.lro) (bases.map order) := by
  induction bases generalizing line with
  | nil => rfl
  | cons base bases ih =>
    rw [List.foldl_cons, ih, Line.order_foldl_add]
    rfl

/-- The order of a class: `Any`, the orders of its bases, the class itself. -/
theorem order_lro_build (self : KlassPtr) (bases : List (List LRONode)) :
    order (lro_build ks self bases).lro =
      mergeAll [.Any_Klass] (bases.map order) ++ [self] := by
  have hbases := @Line.order_foldl ks (Line.append ks ⟨0, []⟩ .Any_Klass) bases
  rw [Line.order_append] at hbases
  unfold lro_build
  dsimp only
  rw [order, List.map_append]
  exact congrArg (· ++ [self]) hbases

end build

section offsets

/-- The nodes of some classes, the first of them at `offset`. -/
def nodes (size : KlassPtr → Nat) : Nat → List KlassPtr → List LRONode
  | _, [] => []
  | offset, klazz :: l => ⟨offset, klazz⟩ :: nodes size (offset + size klazz) l

variable {size : KlassPtr → Nat}

theorem order_nodes (offset : Nat) (l : List KlassPtr) : order (nodes size offset l) = l := by
  induction l generalizing offset with
  | nil => rfl
  | cons klazz l ih => exact congrArg (klazz :: ·) (ih _)

theorem nodes_append (offset : Nat) (l m : List KlassPtr) :
    nodes size offset (l ++ m) =
      nodes size offset l ++ nodes size (offset + (l.map size).sum) m := by
  induction l generalizing offset with
  | nil => rfl
  | cons klazz l ih =>
    rw [List.cons_append, nodes, ih, nodes, List.map_cons, List.sum_cons, Nat.add_assoc]
    rfl

theorem nodes_prefix {l m : List KlassPtr} (h : l <+: m) (offset : Nat) :
    nodes size offset l <+: nodes size offset m := by
  obtain ⟨rest, rfl⟩ := h
  rw [nodes_append]
  exact List.prefix_append _ _

/-- Only the classes before the last one determine the offsets. -/
theorem nodes_congr {size' : KlassPtr → Nat} {l : List KlassPtr} {last : KlassPtr}
    (h : ∀ klazz ∈ l, size klazz = size' klazz) (offset : Nat) :
    nodes size offset (l ++ [last]) = nodes size' offset (l ++ [last]) := by
  induction l generalizing offset with
  | nil => rfl
  | cons klazz l ih =>
    rw [List.cons_append, nodes, nodes, h klazz List.mem_cons_self,
      ih (fun k hk => h k (List.mem_cons_of_mem klazz hk))]

/-- A line whose nodes lie one after the other. -/
def Line.Laid (ks : Klasses) (line : Line) : Prop :=
  line.lro = nodes (nrvars ks) 0 (order line.lro) ∧
    line.offset = ((order line.lro).map (nrvars ks)).sum

variable {ks : Klasses}

theorem Line.Laid.append {line : Line} (h : line.Laid ks) (klazz : KlassPtr) :
    (line.append ks klazz).Laid ks := by
  obtain ⟨hlro, hoffset⟩ := h
  refine ⟨?_, ?_⟩
  · rw [Line.order_append, nodes_append, ← hlro, ← hoffset, Nat.zero_add]
    rfl
  · rw [Line.order_append, List.map_append, List.sum_append, ← hoffset]
    rfl

theorem Line.Laid.add {line : Line} (h : line.Laid ks) (node : LRONode) :
    (line.add ks node).Laid ks := by
  unfold Line.add
  split
  · exact h
  · exact h.append node.klazz

theorem Line.Laid.foldl_add {line : Line} (h : line.Laid ks) (base : List LRONode) :
    (base.foldl (Line.add ks) line).Laid ks := by
  induction base generalizing line with
  | nil => exact h
  | cons node base ih => exact ih (h.add node)

theorem Line.Laid.foldl {line : Line} (h : line.Laid ks) (bases : List (List LRONode)) :
    (bases.foldl (fun line base => base.foldl (Line.add ks) line) line).Laid ks := by
  induction bases generalizing line with
  | nil => exact h
  | cons base bases ih => exact ih (h.foldl_add base)

/-- The offsets of an order sum up the fields of the classes before. -/
theorem lro_build_nodes (self : KlassPtr) (bases : List (List LRONode)) :
    (lro_build ks self bases).lro =
      nodes (nrvars ks) 0 (order (lro_build ks self bases).lro) := by
  have hany : (Line.append ks ⟨0, []⟩ .Any_Klass).Laid ks :=
    Line.Laid.append ⟨rfl, rfl⟩ .Any_Klass
  have hlaid := (hany.foldl bases).append self
  exact hlaid.1

end offsets

/-- `c` is `Any` or a base that `d` was built with. -/
def Parent (hist : List (List Nat)) (c d : KlassPtr) : Prop :=
  ∃ n bases, hist[n]? = some bases ∧ d = .new n ∧ (c = .Any_Klass ∨ ∃ b ∈ bases, c = .new b)

def Ancestor (hist : List (List Nat)) : KlassPtr → KlassPtr → Prop := TransGen (Parent hist)

/-- Every base was built before its class. -/
def Closed (hist : List (List Nat)) : Prop :=
  ∀ (n : Nat) bases, hist[n]? = some bases → ∀ b ∈ bases, b < n

theorem getElem?_concat_cases {α : Type} {l : List α} {a x : α} {n : Nat}
    (h : (l ++ [a])[n]? = some x) : n < l.length ∧ l[n]? = some x ∨ n = l.length ∧ x = a := by
  rcases Nat.lt_or_ge n l.length with hlt | hge
  · rw [List.getElem?_append_left hlt] at h
    exact Or.inl ⟨hlt, h⟩
  · have hlength := (List.getElem?_eq_some_iff.mp h).1
    rw [List.length_append, List.length_singleton] at hlength
    have heq : n = l.length := by omega
    rw [heq, List.getElem?_concat_length] at h
    cases h
    exact Or.inr ⟨heq, rfl⟩

section ancestors

variable {hist : List (List Nat)} {bases : List Nat}

theorem not_ancestor_any (c : KlassPtr) : ¬ Ancestor hist c .Any_Klass := by
  intro h
  cases h with
  | single hparent =>
    obtain ⟨n, bases, _, heq, _⟩ := hparent
    cases heq
  | tail _ hparent =>
    obtain ⟨n, bases, _, heq, _⟩ := hparent
    cases heq

/-- The ancestors of a class are `Any`, its bases and their ancestors. -/
theorem ancestor_new_iff {n : Nat} (hn : hist[n]? = some bases) (c : KlassPtr) :
    Ancestor hist c (.new n) ↔
      c = .Any_Klass ∨ ∃ b ∈ bases, c = .new b ∨ Ancestor hist c (.new b) := by
  constructor
  · intro h
    cases h with
    | single hparent =>
      obtain ⟨m, bases', hm, heq, hc⟩ := hparent
      cases heq
      rw [hn] at hm
      cases hm
      rcases hc with rfl | ⟨b, hb, rfl⟩
      · exact Or.inl rfl
      · exact Or.inr ⟨b, hb, Or.inl rfl⟩
    | @tail d _ hrest hparent =>
      obtain ⟨m, bases', hm, heq, hd⟩ := hparent
      cases heq
      rw [hn] at hm
      cases hm
      rcases hd with rfl | ⟨b, hb, rfl⟩
      · exact absurd hrest (not_ancestor_any c)
      · exact Or.inr ⟨b, hb, Or.inr hrest⟩
  · rintro (rfl | ⟨b, hb, rfl | hc⟩)
    · exact TransGen.single ⟨n, bases, hn, rfl, Or.inl rfl⟩
    · exact TransGen.single ⟨n, bases, hn, rfl, Or.inr ⟨b, hb, rfl⟩⟩
    · exact TransGen.tail hc ⟨n, bases, hn, rfl, Or.inr ⟨b, hb, rfl⟩⟩

/-- A later class is no ancestor of an earlier one. -/
theorem ancestor_append_iff (hclosed : Closed hist) (bases : List Nat) {n : Nat}
    (hn : n < hist.length) (c : KlassPtr) :
    Ancestor (hist ++ [bases]) c (.new n) ↔ Ancestor hist c (.new n) := by
  induction n using Nat.strong_induction_on with
  | _ n ih =>
    have hget : hist[n]? = some hist[n] := List.getElem?_eq_getElem hn
    have hget' : (hist ++ [bases])[n]? = some hist[n] := by
      rw [List.getElem?_append_left hn, hget]
    rw [ancestor_new_iff hget, ancestor_new_iff hget']
    refine or_congr Iff.rfl (exists_congr fun b => and_congr_right fun hb => ?_)
    have hlt := hclosed n _ hget b hb
    exact or_congr Iff.rfl (ih b hlt (hlt.trans hn))

/-- The ancestors of a class are older. -/
theorem ancestor_lt (hclosed : Closed hist) {n : Nat} (hn : n < hist.length) {m : Nat}
    (h : Ancestor hist (.new m) (.new n)) : m < n := by
  induction n using Nat.strong_induction_on generalizing m with
  | _ n ih =>
    have hget : hist[n]? = some hist[n] := List.getElem?_eq_getElem hn
    rcases (ancestor_new_iff hget _).mp h with heq | ⟨b, hb, heq | hc⟩
    · cases heq
    · cases heq
      exact hclosed n _ hget m hb
    · have hlt := hclosed n _ hget b hb
      exact (ih b hlt (hlt.trans hn) hc).trans hlt

end ancestors

/-- What a line resolution order is. -/
structure LineOrder (hist : List (List Nat)) (n : Nat) (l : List KlassPtr) : Prop where
  first : l.head? = some .Any_Klass
  last : l.getLast? = some (.new n)
  nodup : l.Nodup
  mem_iff : ∀ c, c ∈ l ↔ c = .new n ∨ Ancestor hist c (.new n)
  ordered : Ordered (Ancestor hist) l

/-- The orders of the classes at hand. -/
def lines (ks : Klasses) : List (List KlassPtr) := ks.map fun klazz => order klazz.lro

structure Ordering (hist : List (List Nat)) (ls : List (List KlassPtr)) : Prop where
  length : ls.length = hist.length
  closed : Closed hist
  line : ∀ (n : Nat) l, ls[n]? = some l → LineOrder hist n l
  base : ∀ (n : Nat) l base rest, ls[n]? = some l → hist[n]? = some (base :: rest) →
    ∃ lb, ls[base]? = some lb ∧ lb <+: l

theorem ordering_nil : Ordering [] [] := by
  refine ⟨rfl, ?_, ?_, ?_⟩ <;> simp [Closed]

section step

variable {hist : List (List Nat)} {ks ks' : Klasses}

theorem base_orders_ok {bases : List Nat} {orders : List (List LRONode)}
    (h : base_orders ks bases = .ok orders) :
    bases.map (fun base => ks[base]?.map Klass.lro) = orders.map some := by
  induction bases generalizing orders with
  | nil =>
    cases h
    rfl
  | cons base bases ih =>
    rw [base_orders] at h
    split at h
    · cases h
    · next klazz hget =>
      obtain ⟨orders', hrest, h⟩ := bind_eq_ok_iff.mp h
      cases h
      rw [List.map_cons, ih hrest, hget]
      rfl

theorem base_orders_total {bases : List Nat} (h : ∀ b ∈ bases, b < ks.length) :
    ∃ orders, base_orders ks bases = .ok orders := by
  induction bases with
  | nil => exact ⟨[], rfl⟩
  | cons base bases ih =>
    obtain ⟨orders, hrest⟩ := ih fun b hb => h b (List.mem_cons_of_mem base hb)
    obtain ⟨klazz, hget⟩ : ∃ klazz, ks[base]? = some klazz :=
      ⟨_, List.getElem?_eq_getElem (h base List.mem_cons_self)⟩
    refine ⟨klazz.lro :: orders, ?_⟩
    rw [base_orders, hget]
    dsimp only
    rw [hrest, ok_bind]

theorem exists_base {bases : List Nat} {orders : List (List LRONode)}
    (h : base_orders ks bases = .ok orders) {l : List KlassPtr} (hl : l ∈ orders.map order) :
    ∃ b ∈ bases, (lines ks)[b]? = some l := by
  obtain ⟨lro, hlro, rfl⟩ := List.mem_map.mp hl
  have hmem : some lro ∈ bases.map fun base => ks[base]?.map Klass.lro := by
    rw [base_orders_ok h]
    exact List.mem_map_of_mem hlro
  obtain ⟨b, hb, heq⟩ := List.mem_map.mp hmem
  obtain ⟨klazz, hget, rfl⟩ := Option.map_eq_some_iff.mp heq
  exact ⟨b, hb, by rw [lines, List.getElem?_map, hget, Option.map_some]⟩

theorem exists_order {bases : List Nat} {orders : List (List LRONode)}
    (h : base_orders ks bases = .ok orders) {b : Nat} (hb : b ∈ bases) :
    ∃ l ∈ orders.map order, (lines ks)[b]? = some l := by
  have hmem : ks[b]?.map Klass.lro ∈ orders.map some := by
    rw [← base_orders_ok h]
    exact List.mem_map_of_mem hb
  obtain ⟨lro, hlro, heq⟩ := List.mem_map.mp hmem
  obtain ⟨klazz, hget, rfl⟩ := Option.map_eq_some_iff.mp heq.symm
  refine ⟨order klazz.lro, List.mem_map_of_mem hlro, ?_⟩
  rw [lines, List.getElem?_map, hget, Option.map_some]

theorem head_order {base : Nat} {rest : List Nat} {orders : List (List LRONode)}
    (h : base_orders ks (base :: rest) = .ok orders) :
    ∃ l ls, orders.map order = l :: ls ∧ (lines ks)[base]? = some l := by
  have hmap := base_orders_ok h
  cases orders with
  | nil => cases hmap
  | cons lro orders =>
    rw [List.map_cons, List.map_cons] at hmap
    injection hmap with hhead _
    obtain ⟨klazz, hget, rfl⟩ := Option.map_eq_some_iff.mp hhead
    exact ⟨_, _, rfl, by rw [lines, List.getElem?_map, hget, Option.map_some]⟩

theorem Closed.append (h : Closed hist) {bases : List Nat} (hbases : ∀ b ∈ bases, b < hist.length) :
    Closed (hist ++ [bases]) := by
  intro n bases' hn b hb
  rcases getElem?_concat_cases hn with ⟨_, hold⟩ | ⟨rfl, rfl⟩
  · exact h n bases' hold b hb
  · exact hbases b hb

theorem LineOrder.append (h : Closed hist) (bases : List Nat) {n : Nat} (hn : n < hist.length)
    {l : List KlassPtr} (hl : LineOrder hist n l) : LineOrder (hist ++ [bases]) n l := by
  have hsame : ∀ x ∈ l, ∀ y, Ancestor (hist ++ [bases]) y x → Ancestor hist y x := by
    intro x hx y hy
    cases x with
    | Any_Klass => exact absurd hy (not_ancestor_any y)
    | new m =>
      have hm : m < hist.length := by
        rcases (hl.mem_iff _).mp hx with heq | hanc
        · cases heq
          exact hn
        · exact (ancestor_lt h hn hanc).trans hn
      exact (ancestor_append_iff h bases hm y).mp hy
  refine ⟨hl.first, hl.last, hl.nodup, fun c => ?_, fun pre x post heq y hy => ?_⟩
  · rw [hl.mem_iff, ancestor_append_iff h bases hn]
  · exact hl.ordered pre x post heq y (hsame x (heq ▸ List.mem_append_right pre
      List.mem_cons_self) y hy)

/-- The line of a new class, given those of its bases. -/
theorem Ordering.new_line (h : Ordering hist (lines ks)) {bases : List Nat}
    {orders : List (List LRONode)} (horders : base_orders ks bases = .ok orders)
    (hclosed : Closed (hist ++ [bases])) :
    LineOrder (hist ++ [bases]) hist.length
      (mergeAll [.Any_Klass] (orders.map order) ++ [.new hist.length]) := by
  have hlast : (hist ++ [bases])[hist.length]? = some bases := List.getElem?_concat_length
  have hlength : hist.length < (hist ++ [bases]).length := by simp
  have hbase : ∀ b l, (lines ks)[b]? = some l → LineOrder (hist ++ [bases]) b l := by
    intro b l hget
    have hlt : b < hist.length := h.length ▸ (List.getElem?_eq_some_iff.mp hget).1
    exact (h.line b l hget).append h.closed bases hlt
  -- what comes before the class itself are its ancestors
  have hmem : ∀ c, c ∈ mergeAll [.Any_Klass] (orders.map order) ↔
      Ancestor (hist ++ [bases]) c (.new hist.length) := by
    intro c
    rw [mem_mergeAll, List.mem_singleton, ancestor_new_iff hlast]
    refine or_congr Iff.rfl ⟨?_, ?_⟩
    · rintro ⟨l, hl, hc⟩
      obtain ⟨b, hb, hget⟩ := exists_base horders hl
      exact ⟨b, hb, ((hbase b l hget).mem_iff c).mp hc⟩
    · rintro ⟨b, hb, hc⟩
      obtain ⟨l, hl, hget⟩ := exists_order horders hb
      exact ⟨l, hl, ((hbase b l hget).mem_iff c).mpr hc⟩
  have hself : KlassPtr.new hist.length ∉ mergeAll [.Any_Klass] (orders.map order) := by
    rw [hmem]
    exact fun hanc => absurd (ancestor_lt hclosed hlength hanc) (Nat.lt_irrefl _)
  have hany : Ordered (Ancestor (hist ++ [bases])) [KlassPtr.Any_Klass] :=
    ordered_nil.append_singleton fun y hy => absurd hy (not_ancestor_any y)
  refine ⟨?_, List.getLast?_concat, ?_, fun c => ?_, ?_⟩
  · obtain ⟨rest, hrest⟩ := prefix_mergeAll [KlassPtr.Any_Klass] (orders.map order)
    rw [← hrest]
    rfl
  · exact List.nodup_append.mpr ⟨nodup_mergeAll (List.nodup_singleton _) _,
      List.nodup_singleton _, fun a ha b hb heq => hself (by
        rw [← List.mem_singleton.mp hb, ← heq]
        exact ha)⟩
  · rw [List.mem_append, List.mem_singleton, hmem, or_comm]
  · refine (hany.mergeAll fun l hl => ?_).append_singleton fun y hy => (hmem y).mpr hy
    obtain ⟨b, _, hget⟩ := exists_base horders hl
    exact (hbase b l hget).ordered

theorem Klass_New_ok {name : CString} {bases : List Nat} (h : Klass_New ks name bases = .ok ks') :
    ∃ orders klazz, base_orders ks bases = .ok orders ∧ ks' = ks ++ [klazz] ∧
      klazz.lro = (lro_build ks (.new ks.length) orders).lro := by
  obtain ⟨orders, horders, h⟩ := bind_eq_ok_iff.mp h
  cases h
  exact ⟨orders, _, horders, rfl, rfl⟩

/-- A new class leaves the others alone and gets a line of its own. -/
theorem Ordering.Klass_New (h : Ordering hist (lines ks)) {name : CString} {bases : List Nat}
    (hnew : koala.object.Klass_New ks name bases = .ok ks') :
    Ordering (hist ++ [bases]) (lines ks') := by
  obtain ⟨orders, klazz, horders, rfl, hlro⟩ := Klass_New_ok hnew
  have hks : ks.length = hist.length := by rw [← h.length, lines, List.length_map]
  have hlines : lines (ks ++ [klazz]) =
      lines ks ++ [mergeAll [.Any_Klass] (orders.map order) ++ [.new hist.length]] := by
    rw [lines, List.map_append, List.map_singleton, hlro, order_lro_build, hks]
    rfl
  have hbases : ∀ b ∈ bases, b < hist.length := by
    intro b hb
    obtain ⟨l, _, hget⟩ := exists_order horders hb
    exact h.length ▸ (List.getElem?_eq_some_iff.mp hget).1
  have hclosed := h.closed.append hbases
  have hnewline := h.new_line horders hclosed
  rw [hlines]
  refine ⟨by simp [h.length], hclosed, fun n l hget => ?_, fun n l base rest hget hhist => ?_⟩
  · rcases getElem?_concat_cases hget with ⟨hlt, hold⟩ | ⟨rfl, rfl⟩
    · exact (h.line n l hold).append h.closed bases (h.length ▸ hlt)
    · rw [h.length]
      exact hnewline
  · rcases getElem?_concat_cases hget with ⟨hlt, hold⟩ | ⟨rfl, rfl⟩
    · rw [List.getElem?_append_left (h.length ▸ hlt)] at hhist
      obtain ⟨lb, hlb, herrs⟩ := h.base n l base rest hold hhist
      exact ⟨lb, by rw [List.getElem?_append_left (List.getElem?_eq_some_iff.mp hlb).1, hlb],
        herrs⟩
    · rw [h.length, List.getElem?_concat_length] at hhist
      cases hhist
      obtain ⟨lb, others, heq, hlb⟩ := head_order horders
      have hline := h.line base lb hlb
      obtain ⟨l, rfl⟩ : ∃ l, lb = .Any_Klass :: l := List.head?_eq_some_iff.mp hline.first
      refine ⟨_, by rw [List.getElem?_append_left (List.getElem?_eq_some_iff.mp hlb).1, hlb], ?_⟩
      rw [heq]
      exact (prefix_mergeAll_cons hline.nodup others).trans (List.prefix_append _ _)

theorem lines_set {n : Nat} {k k' : Klass} (hn : ks[n]? = some k) (hlro : k'.lro = k.lro) :
    lines (ks.set n k') = lines ks := by
  obtain ⟨hlt, rfl⟩ := List.getElem?_eq_some_iff.mp hn
  rw [lines, List.map_set, hlro]
  have hlength : n < (ks.map fun klazz => order klazz.lro).length := by rwa [List.length_map]
  have hset := List.set_getElem_self hlength
  rwa [List.getElem_map] at hset

/-- Adding a field leaves all lines alone. -/
theorem lines_add_field {n : Nat} {name : CString} {desc : TypeDesc}
    (h : Klass_Add_Field ks n name desc = .ok ks') : lines ks' = lines ks := by
  unfold Klass_Add_Field at h
  split at h
  · cases h
  · next k hget =>
    cases h
    exact lines_set hget rfl

end step

end koala.object
