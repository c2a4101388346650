import Koala.Image.ReadBack

open koala.atomtable koala.bytes

namespace koala.image

set_option linter.style.nameCheck false

/-- The items of one region of a file, their addresses left out. -/
structure Batch where
  kind : ItemKind
  items : List (ItemData kind)

/-- What `read_arrays` reads. -/
def array_items (type : ItemKind) (isize : Nat) : Nat → List UInt8 → Res (List (ItemData type))
  | 0, _ => .ok []
  | size + 1, file => do
    let (sz, len, file) := fread 4 1 file
    if sz ≠ 1 then .error .assertion
    else
      let _ ← VaItem_New type.sizeof isize (word len)
      let (sz, array, file) := fread (isize * word len) 1 file
      if sz ≠ 1 then .error .assertion
      else
        let item ← item_read 0 type len array
        let items ← array_items type isize size file
        .ok (item :: items)

/-- What `read_structs` reads. -/
def struct_items (type : ItemKind) (size : Int) (file : List UInt8) :
    Res (List (ItemData type)) :=
  if size < 0 then .error .bounds
  else
    let (sz, data, _) := fread type.sizeof size.toNat file
    if sz ≠ size.toNat then .error .assertion
    else (chunks type.sizeof size.toNat data).mapM fun data => item_read 0 type data []

def kind_items (type : ItemKind) (size : Int) (file : List UInt8) : Res (List (ItemData type)) :=
  match type.isize with
  | some isize => array_items type isize size.toNat file
  | none => struct_items type size file

/-- What `read_map` reads, whether or not it is loaded. -/
def map_items (file : List UInt8) (map : MapItem) : Res Batch :=
  match ItemKind.ofNumber map.type with
  | none => .error .assertion
  | some .ITEM_MAP => .error .assertion
  | some type => do
    let items ← kind_items type map.size (fseek file map.offset)
    .ok ⟨type, items⟩

def load_batch (load : ItemKind → Bool) (addr : Nat → Nat) (n : Nat) (b : Batch) (table : Table) :
    Res Table :=
  if load b.kind then load_items addr b.kind n b.items table else .ok table

section read

variable {type : ItemKind} {addr : Nat → Nat} {T T' : Table}

theorem item_read_addr (addr : Nat) (type : ItemKind) (data array : List UInt8) :
    item_read addr type data array = (item_read 0 type data array).map (readdress addr type) := by
  cases type with
  | ITEM_CONST =>
    rw [item_read, item_read]
    cases constval_read data <;> rfl
  | ITEM_STRING =>
    rw [item_read, item_read]
    split <;> rfl
  | _ => rfl

theorem item_read_ok {data array : List UInt8} {item : ItemData type}
    (h : item_read 0 type data array = .ok item) (addr : Nat) :
    item_read addr type data array = .ok (readdress addr type item) := by
  rw [item_read_addr, h]
  rfl

theorem item_read_isize {isize : Nat} (hsize : type.isize = some isize) {len array : List UInt8}
    {item : ItemData type} (h : item_read 0 type len array = .ok item) :
    (item_array type item).length = array.length / isize * isize := by
  cases type with
  | ITEM_CODE =>
    cases hsize
    cases h
    rw [Nat.div_one, Nat.mul_one]
    rfl
  | ITEM_STRING =>
    cases hsize
    rw [item_read] at h
    split at h
    · cases h
      rw [Nat.div_one, Nat.mul_one]
      rfl
    · cases h
  | ITEM_TYPELIST =>
    cases hsize
    cases h
    have hlength : ∀ (n : Nat) (data : List UInt8), (ofBytes n data).length = n := by
      intro n
      induction n with
      | zero => intro data; rfl
      | succ n ih =>
        intro data
        rw [ofBytes, List.length_cons, ih]
    rw [item_array, length_words, List.length_map, List.length_map, hlength, Nat.mul_comm]
  | _ => cases hsize

/-- One element of some size is read when the file has it. -/
theorem fread_one {size : Nat} {file data rest : List UInt8}
    (h : fread size 1 file = (1, data, rest)) : 0 < size ∧ data.length = size := by
  unfold fread at h
  split at h
  · cases h
  · next hpos =>
    dsimp only at h
    obtain ⟨hcount, hrest⟩ := Prod.mk.inj h
    obtain ⟨hdata, -⟩ := Prod.mk.inj hrest
    have hle : 1 ≤ file.length / size := by
      have hmin := Nat.min_le_right 1 (file.length / size)
      omega
    have hsize : size ≤ file.length := by
      have hmul := Nat.div_mul_le_self file.length size
      exact (Nat.le_mul_of_pos_left size hle).trans hmul
    refine ⟨Nat.pos_of_ne_zero hpos, ?_⟩
    rw [← hdata, hcount, Nat.one_mul, List.length_take, Nat.min_eq_left hsize]

/-- The bytes of the next item with an array. -/
def NextArray (type : ItemKind) (isize : Nat) (file len array rest : List UInt8) : Prop :=
  ∃ file₁, fread 4 1 file = (1, len, file₁) ∧ type.sizeof + isize * word len ≤ INT_MAX ∧
    fread (isize * word len) 1 file₁ = (1, array, rest)

theorem array_items_succ {isize size : Nat} {file : List UInt8} {items : List (ItemData type)}
    (h : array_items type isize (size + 1) file = .ok items) :
    ∃ len array rest item more, NextArray type isize file len array rest ∧
      item_read 0 type len array = .ok item ∧ array_items type isize size rest = .ok more ∧
      items = item :: more := by
  rw [array_items] at h
  rcases hlen : fread 4 1 file with ⟨sz, len, file₁⟩
  rw [hlen] at h
  dsimp only at h
  split at h
  · cases h
  · next hsz =>
    obtain ⟨_, hnew, h⟩ := bind_eq_ok_iff.mp h
    obtain ⟨hint, -⟩ := addInt_eq_ok_iff.mp hnew
    rcases harray : fread (isize * word len) 1 file₁ with ⟨sz', array, rest⟩
    rw [harray] at h
    dsimp only at h
    split at h
    · cases h
    · next hsz' =>
      obtain ⟨item, hitem, h⟩ := bind_eq_ok_iff.mp h
      obtain ⟨more, hmore, heq⟩ := bind_eq_ok_iff.mp h
      rw [not_not.mp hsz] at hlen
      rw [not_not.mp hsz'] at harray
      exact ⟨len, array, rest, item, more, ⟨file₁, hlen, hint, harray⟩, hitem, hmore,
        (Except.ok.inj heq).symm⟩

theorem read_arrays_succ_ok {isize size : Nat} {file : List UInt8}
    (h : read_arrays type isize (size + 1) file T = .ok T') :
    ∃ len array rest item r, NextArray type isize file len array rest ∧
      item_read 0 type len array = .ok item ∧ Append T type item = .ok r ∧
      read_arrays type isize size rest r.2 = .ok T' := by
  rw [read_arrays] at h
  rcases hlen : fread 4 1 file with ⟨sz, len, file₁⟩
  rw [hlen] at h
  dsimp only at h
  split at h
  · cases h
  · next hsz =>
    obtain ⟨_, hnew, h⟩ := bind_eq_ok_iff.mp h
    obtain ⟨hint, -⟩ := addInt_eq_ok_iff.mp hnew
    rcases harray : fread (isize * word len) 1 file₁ with ⟨sz', array, rest⟩
    rw [harray] at h
    dsimp only at h
    split at h
    · cases h
    · next hsz' =>
      obtain ⟨item, hitem, h⟩ := bind_eq_ok_iff.mp h
      obtain ⟨r, happend, hrest⟩ := bind_eq_ok_iff.mp h
      rw [not_not.mp hsz] at hlen
      rw [not_not.mp hsz'] at harray
      exact ⟨len, array, rest, item, r, ⟨file₁, hlen, hint, harray⟩, hitem, happend, hrest⟩

/-- What is read with an array can be read. -/
theorem NextArray.readable {isize : Nat} {file len array rest : List UInt8}
    (h : NextArray type isize file len array rest) (hsize : type.isize = some isize)
    {item : ItemData type} (hitem : item_read 0 type len array = .ok item) :
    item_array type item ≠ [] := by
  obtain ⟨file₁, -, -, harray⟩ := h
  obtain ⟨hpos, hlength⟩ := fread_one harray
  have harraylength := item_read_isize hsize hitem
  intro hnil
  have hisize : 0 < isize := Nat.pos_of_mul_pos_right hpos
  rw [hnil, hlength, Nat.mul_div_cancel_left _ hisize, List.length_nil,
    Nat.mul_comm] at harraylength
  omega

/-- Items with arrays are loaded one by one as they are read. -/
theorem read_arrays_eq {isize : Nat} (hsize : type.isize = some isize) {size : Nat}
    {file : List UInt8} {items : List (ItemData type)}
    (h : array_items type isize size file = .ok items) (addr : Nat → Nat) (n : Nat) (T : Table) :
    read_arrays type isize size file T = load_items addr type n items T := by
  induction size generalizing file items n T with
  | zero =>
    cases h
    rfl
  | succ size ih =>
    obtain ⟨len, array, rest, item, more, hnext, hitem, hmore, rfl⟩ := array_items_succ h
    have hreadable := hnext.readable hsize hitem
    obtain ⟨file₁, hlen, hint, harray⟩ := hnext
    rw [read_arrays_succ hlen hint harray, hitem, ok_bind, load_items,
      if_neg fun hempty => hreadable hempty.2, readdress_of_isize hsize]
    refine bind_congr fun r => ?_
    exact ih hmore (n + 1) r.2

theorem array_items_of_read {isize size : Nat} {file : List UInt8}
    (h : read_arrays type isize size file T = .ok T') :
    ∃ items, array_items type isize size file = .ok items ∧ items.length = size := by
  induction size generalizing file T with
  | zero => exact ⟨[], rfl, rfl⟩
  | succ size ih =>
    obtain ⟨len, array, rest, item, r, ⟨file₁, hlen, hint, harray⟩, hitem, -, hrest⟩ :=
      read_arrays_succ_ok h
    obtain ⟨items, hitems, hlength⟩ := ih hrest
    refine ⟨item :: items, ?_, congrArg Nat.succ hlength⟩
    rw [array_items, hlen]
    dsimp only
    rw [if_neg (not_not.mpr rfl), VaItem_New_ok hint, ok_bind, harray]
    dsimp only
    rw [if_neg (not_not.mpr rfl), hitem, ok_bind, hitems]
    rfl

/-- Structs are loaded one by one as they are read. -/
theorem append_structs_eq (hsize : type.isize = none) {structs : List (List UInt8)}
    {items : List (ItemData type)}
    (h : structs.mapM (fun data => item_read 0 type data []) = .ok items) (addr : Nat → Nat)
    (n : Nat) (T : Table) :
    append_structs addr type n structs T = load_items addr type n items T := by
  induction structs generalizing items n T with
  | nil =>
    cases h
    rfl
  | cons data structs ih =>
    rw [List.mapM_cons] at h
    obtain ⟨item, hitem, h⟩ := bind_eq_ok_iff.mp h
    obtain ⟨more, hmore, heq⟩ := bind_eq_ok_iff.mp h
    cases heq
    have hcheck : ¬ (type.isize.isSome = true ∧ item_array type item = []) := by
      rw [hsize]
      exact fun hsome => absurd hsome.1 (by decide)
    rw [append_structs, item_read_ok hitem, ok_bind, load_items, if_neg hcheck]
    refine bind_congr fun r => ?_
    exact ih hmore (n + 1) r.2

theorem struct_items_of_append {structs : List (List UInt8)} {n : Nat}
    (h : append_structs addr type n structs T = .ok T') :
    ∃ items, structs.mapM (fun data => item_read 0 type data []) = .ok items ∧
      items.length = structs.length := by
  induction structs generalizing n T with
  | nil => exact ⟨[], rfl, rfl⟩
  | cons data structs ih =>
    obtain ⟨item, hitem, h⟩ := bind_eq_ok_iff.mp h
    obtain ⟨r, -, hrest⟩ := bind_eq_ok_iff.mp h
    obtain ⟨items, hitems, hlength⟩ := ih hrest
    rw [item_read_addr] at hitem
    cases hread : item_read 0 type data [] with
    | error e =>
      rw [hread] at hitem
      cases hitem
    | ok item₀ =>
      refine ⟨item₀ :: items, ?_, congrArg Nat.succ hlength⟩
      rw [List.mapM_cons, hread, ok_bind, hitems]
      rfl

theorem length_chunks (size n : Nat) (data : List UInt8) : (chunks size n data).length = n := by
  induction n generalizing data with
  | zero => rfl
  | succ n ih => rw [chunks, List.length_cons, ih]

section kind

variable {file : List UInt8} {map : MapItem}

theorem map_items_of_kind (htype : type ≠ .ITEM_MAP)
    (hnumber : ItemKind.ofNumber map.type = some type) : map_items file map = (do
      let items ← kind_items type map.size (fseek file map.offset)
      .ok ⟨type, items⟩) := by
  unfold map_items
  rw [hnumber]
  cases type <;> first | rfl | exact absurd rfl htype

theorem read_map_of_kind (htype : type ≠ .ITEM_MAP)
    (hnumber : ItemKind.ofNumber map.type = some type) (load : ItemKind → Bool)
    (addr : Nat → Nat) (n : Nat) (T : Table) : read_map load addr n file map T =
      if load type then
        match type.isize with
        | some isize => read_arrays type isize map.size.toNat (fseek file map.offset) T
        | none => read_structs addr type n map.size (fseek file map.offset) T
      else .ok T := by
  unfold read_map
  dsimp only
  rw [hnumber]
  cases type <;> first | rfl | exact absurd rfl htype

/-- A map item that is no region of items is not read. -/
theorem kind_of_map_items {b : Batch} (h : map_items file map = .ok b) :
    ∃ type, type ≠ .ITEM_MAP ∧ ItemKind.ofNumber map.type = some type := by
  unfold map_items at h
  cases hnumber : ItemKind.ofNumber map.type with
  | none =>
    rw [hnumber] at h
    cases h
  | some type =>
    refine ⟨type, ?_, rfl⟩
    rintro rfl
    rw [hnumber] at h
    cases h

theorem kind_of_read_map {load : ItemKind → Bool} {n : Nat}
    (h : read_map load addr n file map T = .ok T') :
    ∃ type, type ≠ .ITEM_MAP ∧ ItemKind.ofNumber map.type = some type := by
  unfold read_map at h
  dsimp only at h
  cases hnumber : ItemKind.ofNumber map.type with
  | none =>
    rw [hnumber] at h
    cases h
  | some type =>
    refine ⟨type, ?_, rfl⟩
    rintro rfl
    rw [hnumber] at h
    cases h

end kind

/-- A region is loaded, unless its kind is not to be loaded. -/
theorem read_map_eq {file : List UInt8} {map : MapItem} {b : Batch}
    (h : map_items file map = .ok b) (load : ItemKind → Bool) (addr : Nat → Nat) (n : Nat)
    (T : Table) : read_map load addr n file map T = load_batch load addr n b T := by
  obtain ⟨type, hmap, hnumber⟩ := kind_of_map_items h
  rw [map_items_of_kind hmap hnumber] at h
  obtain ⟨items, hitems, heq⟩ := bind_eq_ok_iff.mp h
  cases heq
  have hread : (match type.isize with
      | some isize => read_arrays type isize map.size.toNat (fseek file map.offset) T
      | none => read_structs addr type n map.size (fseek file map.offset) T) =
      load_items addr type n items T := by
    unfold kind_items at hitems
    cases hsize : type.isize with
    | some isize =>
      rw [hsize] at hitems
      exact read_arrays_eq hsize hitems addr n T
    | none =>
      rw [hsize] at hitems
      dsimp only at hitems ⊢
      unfold struct_items at hitems
      unfold read_structs
      dsimp only at hitems ⊢
      split at hitems
      · cases hitems
      · next hneg =>
        split at hitems
        · cases hitems
        · next hsz =>
          rw [if_neg hneg, if_neg hsz]
          exact append_structs_eq hsize hitems addr n T
  rw [read_map_of_kind hmap hnumber, hread]
  rfl

theorem map_items_of_read {file : List UInt8} {map : MapItem} {load : ItemKind → Bool} {n : Nat}
    (hload : ∀ type, load type = true) (h : read_map load addr n file map T = .ok T') :
    ∃ b, map_items file map = .ok b ∧ b.items.length = map.size.toNat := by
  obtain ⟨type, hmap, hnumber⟩ := kind_of_read_map h
  rw [read_map_of_kind hmap hnumber, hload type, if_pos rfl] at h
  have hitems : ∃ items, kind_items type map.size (fseek file map.offset) = .ok items ∧
      items.length = map.size.toNat := by
    unfold kind_items
    cases hsize : type.isize with
    | some isize =>
      rw [hsize] at h
      exact array_items_of_read h
    | none =>
      rw [hsize] at h
      dsimp only at h ⊢
      unfold read_structs at h
      unfold struct_items
      dsimp only at h ⊢
      split at h
      · cases h
      · next hneg =>
        split at h
        · cases h
        · next hsz =>
          rw [if_neg hneg, if_neg hsz]
          obtain ⟨items, hitems, hlength⟩ := struct_items_of_append h
          rw [length_chunks] at hlength
          exact ⟨items, hitems, hlength⟩
  obtain ⟨items, hitems, hlength⟩ := hitems
  refine ⟨⟨type, items⟩, ?_, hlength⟩
  rw [map_items_of_kind hmap hnumber, hitems, ok_bind]

end read

/-- Loading batches; the first item is the `n`th of the file. -/
def load_batches (load : ItemKind → Bool) (addr : Nat → Nat) : Nat → List Batch → Table → Res Table
  | _, [], table => .ok table
  | n, b :: bs, table => do
    let table ← load_batch load addr n b table
    load_batches load addr (n + b.items.length) bs table

/-- The items of a kind in a batch. -/
def Batch.of (type : ItemKind) (b : Batch) : List (ItemData type) :=
  if h : b.kind = type then h ▸ b.items else []

/-- The copies of the items of a kind that batches leave behind. -/
def batch_copies (addr : Nat → Nat) (type : ItemKind) : Nat → List Batch → List (ItemData type)
  | _, [] => []
  | n, b :: bs => copies addr type n (b.of type) ++ batch_copies addr type (n + b.items.length) bs

section batches

variable {load : ItemKind → Bool} {addr : Nat → Nat} {type : ItemKind} {R R' : Table}
  {bs : List Batch} {b : Batch} {n : Nat}

theorem Batch.of_self (b : Batch) : b.of b.kind = b.items := by
  rw [Batch.of, dif_pos rfl]

theorem Batch.of_ne (h : b.kind ≠ type) : b.of type = [] := by
  rw [Batch.of, dif_neg h]

/-- Where a batch is loaded, its items are behind those of their kind. -/
theorem loaded_batch (R : Table) (b : Batch) (n : Nat) (type : ItemKind) :
    loaded R b.kind (copies addr b.kind n b.items) type =
      R.items type ++ copies addr type n (b.of type) := by
  by_cases htype : b.kind = type
  · subst htype
    rw [loaded_self, Batch.of_self]
  · rw [loaded_of_ne _ (Ne.symm htype), Batch.of_ne htype, copies, List.append_nil]

theorem load_batches_ok (hwf : WF R) (h : load_batches load addr n bs R = .ok R') :
    WF R' ∧ (∀ type, R'.items type =
      R.items type ++ if load type then batch_copies addr type n bs else []) ∧
      ∀ b ∈ bs, load b.kind = true → ∀ item ∈ b.items, Readable b.kind item := by
  induction bs generalizing n R with
  | nil =>
    cases h
    refine ⟨hwf, fun type => ?_, by simp⟩
    rw [batch_copies, ite_self, List.append_nil]
  | cons b bs ih =>
    rw [load_batches, load_batch] at h
    cases hl : load b.kind with
    | true =>
      rw [hl, if_pos rfl] at h
      obtain ⟨R₁, hload, h⟩ := bind_eq_ok_iff.mp h
      obtain ⟨hwf₁, hitems₁, hreadable⟩ := load_items_ok hwf hload
      obtain ⟨hwf', hitems, hrest⟩ := ih hwf₁ h
      refine ⟨hwf', fun type => ?_, ?_⟩
      · rw [hitems, hitems₁, loaded_batch, List.append_assoc, batch_copies]
        by_cases htype : b.kind = type
        · subst htype
          rw [hl, if_pos rfl, if_pos rfl]
        · rw [Batch.of_ne htype, copies, List.nil_append, List.nil_append]
      · exact List.forall_mem_cons.mpr ⟨fun _ => hreadable, hrest⟩
    | false =>
      rw [hl, if_neg (by decide), ok_bind] at h
      obtain ⟨hwf', hitems, hrest⟩ := ih hwf h
      refine ⟨hwf', fun type => ?_, ?_⟩
      · rw [hitems, batch_copies]
        by_cases htype : b.kind = type
        · subst htype
          rw [hl, if_neg (by decide), if_neg (by decide)]
        · rw [Batch.of_ne htype, copies, List.nil_append]
      · refine List.forall_mem_cons.mpr ⟨fun htrue => ?_, hrest⟩
        rw [hl] at htrue
        cases htrue

/-- Batches whose items are readable and differ from each other can be loaded. -/
theorem load_batches_total (hwf : WF R)
    (hreadable : ∀ b ∈ bs, load b.kind = true → ∀ item ∈ b.items, Readable b.kind item)
    (hdiffer : ∀ type, load type = true → type.unique = true →
      Differing type (R.items type ++ batch_copies addr type n bs)) :
    ∃ R', load_batches load addr n bs R = .ok R' := by
  induction bs generalizing n R with
  | nil => exact ⟨R, rfl⟩
  | cons b bs ih =>
    have hrest := fun c hc => hreadable c (List.mem_cons_of_mem b hc)
    rw [load_batches, load_batch]
    cases hl : load b.kind with
    | true =>
      obtain ⟨R₁, hload⟩ : ∃ R₁, load_items addr b.kind n b.items R = .ok R₁ := by
        refine load_items_total hwf (hreadable b List.mem_cons_self hl) fun hunique => ?_
        have hall := hdiffer b.kind hl hunique
        rw [batch_copies, ← List.append_assoc, Batch.of_self] at hall
        exact (List.pairwise_append.mp hall).1
      obtain ⟨hwf₁, hitems₁, -⟩ := load_items_ok hwf hload
      rw [if_pos rfl, hload, ok_bind]
      refine ih hwf₁ hrest fun type hltype hunique => ?_
      have hall := hdiffer type hltype hunique
      rw [batch_copies, ← List.append_assoc] at hall
      rw [hitems₁, loaded_batch]
      exact hall
    | false =>
      rw [if_neg (by decide), ok_bind]
      refine ih hwf hrest fun type hltype hunique => ?_
      have hall := hdiffer type hltype hunique
      have htype : b.kind ≠ type := by
        rintro rfl
        rw [hl] at hltype
        cases hltype
      rw [batch_copies, Batch.of_ne htype, copies, List.nil_append] at hall
      exact hall

/-- Reading the regions of a file is loading their batches. -/
theorem read_maps_eq {file : List UInt8} {maps : List MapItem}
    (h : maps.mapM (map_items file) = .ok bs)
    (hlength : bs.map (fun b => b.items.length) = maps.map fun map => map.size.toNat)
    (load : ItemKind → Bool) (addr : Nat → Nat) (n : Nat) (T : Table) :
    read_maps load addr file n maps T = load_batches load addr n bs T := by
  induction maps generalizing bs n T with
  | nil =>
    cases h
    rfl
  | cons map maps ih =>
    rw [List.mapM_cons] at h
    obtain ⟨b, hb, h⟩ := bind_eq_ok_iff.mp h
    obtain ⟨bs, hbs, heq⟩ := bind_eq_ok_iff.mp h
    cases heq
    obtain ⟨hsize, hsizes⟩ := List.cons_eq_cons.mp hlength
    dsimp only at hsize
    rw [read_maps, read_map_eq hb, load_batches, hsize]
    refine bind_congr fun T₁ => ?_
    exact ih hbs hsizes _ T₁

theorem batches_of_read {file : List UInt8} {maps : List MapItem} {T T' : Table}
    (hload : ∀ type, load type = true) (h : read_maps load addr file n maps T = .ok T') :
    ∃ bs, maps.mapM (map_items file) = .ok bs ∧
      bs.map (fun b => b.items.length) = maps.map fun map => map.size.toNat := by
  induction maps generalizing n T with
  | nil => exact ⟨[], rfl, rfl⟩
  | cons map maps ih =>
    obtain ⟨T₁, hread, h⟩ := bind_eq_ok_iff.mp h
    obtain ⟨b, hb, hlength⟩ := map_items_of_read hload hread
    obtain ⟨bs, hbs, hlengths⟩ := ih h
    refine ⟨b :: bs, ?_, congrArg₂ List.cons hlength hlengths⟩
    rw [List.mapM_cons, hb, ok_bind, hbs]
    rfl

end batches

end koala.image
