import Koala.Basic

namespace koala.buffer

set_option linter.style.nameCheck false

/-- A buffer that grows by blocks of `bsize` bytes. `head` lists the bytes that
each block uses, `size` counts them all. -/
structure Buffer where
  size : Nat
  bsize : Nat
  head : List (List UInt8)
  bsize_pos : 0 < bsize
  used_le : ∀ block ∈ head, block.length ≤ bsize
  size_eq : size = head.flatten.length

def Buffer_Init (bsize : Nat) (hpos : 0 < bsize) : Buffer where
  size := 0
  bsize := bsize
  head := []
  bsize_pos := hpos
  used_le := by simp
  size_eq := rfl

def Buffer_Size (buf : Buffer) : Nat := buf.size

/-- The used bytes of all blocks. -/
def Buffer_RawData (buf : Buffer) : List UInt8 := buf.head.flatten

/-- `x` rounded up to a multiple of `a`. -/
def ALIGN (x a : Nat) : Nat := (x + a - 1) / a * a

/-- The memory that `Buffer_RawData` returns: it is zeroed before the bytes are copied. -/
def Buffer_RawData.memory (buf : Buffer) : List UInt8 :=
  Buffer_RawData buf ++ List.replicate (ALIGN (Buffer_Size buf) 4 - Buffer_Size buf) 0

theorem Buffer_Size_eq (buf : Buffer) : Buffer_Size buf = (Buffer_RawData buf).length :=
  buf.size_eq

namespace Buffer

variable (buf : Buffer)

/-- The bytes that are left in the last block. -/
def left : Nat :=
  match buf.head.getLast? with
  | some block => buf.bsize - block.length
  | none => 0

/-- An empty block is linked behind the others. -/
def grow : Buffer :=
  { buf with
    head := buf.head ++ [[]]
    used_le := by
      intro block hblock
      obtain hold | hnew := List.mem_append.mp hblock
      · exact buf.used_le block hold
      · rw [List.mem_singleton.mp hnew]
        exact Nat.zero_le _
    size_eq := by simpa using buf.size_eq }

theorem left_grow : buf.grow.left = buf.bsize := by
  simp [left, grow]

theorem head_of_left {n : Nat} (hleft : n ≤ buf.left) (hpos : 0 < n) :
    ∃ blocks block, buf.head = blocks ++ [block] ∧ block.length + n ≤ buf.bsize := by
  rw [left] at hleft
  cases hlast : buf.head.getLast? with
  | none =>
    rw [hlast] at hleft
    exact absurd hleft (Nat.not_le.mpr hpos)
  | some block =>
    rw [hlast] at hleft
    have hmem := List.mem_of_getLast? hlast
    have hused := buf.used_le block hmem
    obtain ⟨blocks, hblocks⟩ := List.getLast?_eq_some_iff.mp hlast
    refine ⟨blocks, block, hblocks, ?_⟩
    dsimp only at hleft
    omega

/-- Bytes that fit are copied to the end of the last block. -/
def fill (data : List UInt8) (hleft : data.length ≤ buf.left) (hpos : 0 < data.length) : Buffer :=
  { buf with
    size := buf.size + data.length
    head := buf.head.dropLast ++ [buf.head.getLast?.getD [] ++ data]
    used_le := by
      obtain ⟨blocks, last, hhead, hroom⟩ := buf.head_of_left hleft hpos
      intro block hblock
      obtain hold | hnew := List.mem_append.mp hblock
      · exact buf.used_le block (List.dropLast_subset _ hold)
      · rw [List.mem_singleton.mp hnew, hhead, List.getLast?_concat, Option.getD_some,
          List.length_append]
        exact hroom
    size_eq := by
      obtain ⟨blocks, last, hhead, _⟩ := buf.head_of_left hleft hpos
      have hsize := buf.size_eq
      rw [hhead] at hsize ⊢
      simp only [List.getLast?_concat, List.dropLast_concat, Option.getD_some,
        List.flatten_append, List.length_append, List.flatten_cons, List.flatten_nil,
        List.length_nil] at hsize ⊢
      omega }

theorem rawData_grow : Buffer_RawData buf.grow = Buffer_RawData buf := by
  simp [Buffer_RawData, grow]

theorem rawData_fill {data : List UInt8} (hleft : data.length ≤ buf.left)
    (hpos : 0 < data.length) :
    Buffer_RawData (buf.fill data hleft hpos) = Buffer_RawData buf ++ data := by
  obtain ⟨blocks, last, hhead, _⟩ := buf.head_of_left hleft hpos
  rw [Buffer_RawData, Buffer_RawData, fill]
  dsimp only
  rw [hhead]
  simp

end Buffer

/-- The last block takes what it has room for; when it is full, a new block
comes first. -/
def Buffer_Write (buf : Buffer) (data : List UInt8) : Buffer :=
  if hdata : data = [] then buf
  else if hfull : buf.left = 0 then Buffer_Write buf.grow data
  else
    have hpos : 0 < (data.take buf.left).length := by
      have hlength := List.length_pos_iff.mpr hdata
      rw [List.length_take]
      omega
    Buffer_Write (buf.fill (data.take buf.left) (List.length_take_le _ _) hpos)
      (data.drop buf.left)
termination_by (data.length, if buf.left = 0 then 1 else 0)
decreasing_by
  · have hroom := buf.bsize_pos
    rw [Buffer.left_grow, if_pos hfull, if_neg (Nat.pos_iff_ne_zero.mp hroom)]
    exact Prod.Lex.right _ Nat.one_pos
  · have hlength := List.length_pos_iff.mpr hdata
    rw [List.length_drop]
    exact Prod.Lex.left _ _ (by omega)

/-- What is written stands behind what the buffer held. -/
@[simp] theorem rawData_write (buf : Buffer) (data : List UInt8) :
    Buffer_RawData (Buffer_Write buf data) = Buffer_RawData buf ++ data := by
  induction buf, data using Buffer_Write.induct with
  | case1 buf =>
    rw [Buffer_Write, dif_pos rfl, List.append_nil]
  | case2 buf data hdata hfull ih =>
    rw [Buffer_Write, dif_neg hdata, dif_pos hfull, ih, Buffer.rawData_grow]
  | case3 buf data hdata hfull hpos ih =>
    rw [Buffer_Write, dif_neg hdata, dif_neg hfull, ih, Buffer.rawData_fill, List.append_assoc,
      List.take_append_drop]

theorem bsize_write (buf : Buffer) (data : List UInt8) :
    (Buffer_Write buf data).bsize = buf.bsize := by
  induction buf, data using Buffer_Write.induct with
  | case1 buf =>
    rw [Buffer_Write, dif_pos rfl]
  | case2 buf data hdata hfull ih =>
    rw [Buffer_Write, dif_neg hdata, dif_pos hfull, ih]
    rfl
  | case3 buf data hdata hfull hpos ih =>
    rw [Buffer_Write, dif_neg hdata, dif_neg hfull, ih]
    rfl

theorem size_write (buf : Buffer) (data : List UInt8) :
    Buffer_Size (Buffer_Write buf data) = Buffer_Size buf + data.length := by
  rw [Buffer_Size_eq, Buffer_Size_eq, rawData_write, List.length_append]

end koala.buffer

namespace koala.buffer

namespace Buffer

/-- All blocks but the last are full, and the last holds something. -/
def Packed (buf : Buffer) : Prop :=
  buf.head = [] ∨ ∃ blocks last, buf.head = blocks ++ [last] ∧
    (∀ block ∈ blocks, block.length = buf.bsize) ∧ 0 < last.length

/-- While there are bytes to write, the last block may be empty. -/
def Filling (buf : Buffer) : Prop :=
  buf.head = [] ∨ ∃ blocks last, buf.head = blocks ++ [last] ∧
    ∀ block ∈ blocks, block.length = buf.bsize

theorem Packed.filling {buf : Buffer} (h : buf.Packed) : buf.Filling := by
  obtain hempty | ⟨blocks, last, hhead, hfull, _⟩ := h
  · exact Or.inl hempty
  · exact Or.inr ⟨blocks, last, hhead, hfull⟩

theorem left_concat {buf : Buffer} {blocks : List (List UInt8)} {last : List UInt8}
    (hhead : buf.head = blocks ++ [last]) : buf.left = buf.bsize - last.length := by
  rw [left, hhead, List.getLast?_concat]

theorem Filling.grow {buf : Buffer} (h : buf.Filling) (hfull : buf.left = 0) : buf.grow.Filling := by
  refine Or.inr ⟨buf.head, [], rfl, ?_⟩
  obtain hempty | ⟨blocks, last, hhead, hblocks⟩ := h
  · simp [hempty]
  · intro block hblock
    rw [hhead] at hblock
    obtain hold | hlast := List.mem_append.mp hblock
    · exact hblocks block hold
    · rw [List.mem_singleton.mp hlast]
      rw [left_concat hhead] at hfull
      have hused := buf.used_le last (hhead ▸ List.mem_append_right _ List.mem_cons_self)
      exact Nat.le_antisymm hused (Nat.le_of_sub_eq_zero hfull)

theorem Filling.fill {buf : Buffer} (h : buf.Filling) {data : List UInt8}
    (hleft : data.length ≤ buf.left) (hpos : 0 < data.length) :
    (buf.fill data hleft hpos).Packed := by
  obtain ⟨blocks, last, hhead, _⟩ := buf.head_of_left hleft hpos
  refine Or.inr ⟨blocks, last ++ data, ?_, ?_, ?_⟩
  · simp [Buffer.fill, hhead]
  · obtain hempty | ⟨blocks', last', hhead', hblocks⟩ := h
    · simp [hempty] at hhead
    · obtain ⟨rfl, _⟩ := List.append_inj' (hhead.symm.trans hhead') rfl
      exact hblocks
  · rw [List.length_append]
    omega

/-- A write leaves no block empty and only the last one unfilled. -/
theorem Packed.write {buf : Buffer} (h : buf.Packed) (data : List UInt8) :
    (Buffer_Write buf data).Packed := by
  have hrun : ∀ (buf : Buffer) (data : List UInt8), (if data = [] then buf.Packed else buf.Filling) →
      (Buffer_Write buf data).Packed := by
    intro buf data
    induction buf, data using Buffer_Write.induct with
    | case1 buf =>
      intro hbuf
      rw [Buffer_Write, dif_pos rfl]
      simpa using hbuf
    | case2 buf data hdata hfull ih =>
      intro hbuf
      rw [if_neg hdata] at hbuf ih
      rw [Buffer_Write, dif_neg hdata, dif_pos hfull]
      exact ih (hbuf.grow hfull)
    | case3 buf data hdata hfull hpos ih =>
      intro hbuf
      rw [if_neg hdata] at hbuf
      rw [Buffer_Write, dif_neg hdata, dif_neg hfull]
      have hpacked := hbuf.fill (List.length_take_le _ _) hpos
      refine ih ?_
      split
      · exact hpacked
      · exact hpacked.filling
  refine hrun buf data ?_
  split
  · exact h
  · exact h.filling

theorem Packed.dropLast {buf : Buffer} (h : buf.Packed) :
    ∀ block ∈ buf.head.dropLast, block.length = buf.bsize := by
  obtain hempty | ⟨blocks, last, hhead, hfull, _⟩ := h
  · simp [hempty]
  · rw [hhead, List.dropLast_concat]
    exact hfull

/-- The number of blocks is the number of bytes divided by the size of a block, rounded up. -/
theorem Packed.count {buf : Buffer} (h : buf.Packed) :
    buf.head.length = (buf.size + buf.bsize - 1) / buf.bsize := by
  have hpos := buf.bsize_pos
  obtain hempty | ⟨blocks, last, hhead, hfull, hlast⟩ := h
  · have hsize := buf.size_eq
    rw [hempty] at hsize ⊢
    rw [hsize]
    exact (Nat.div_eq_of_lt (by simp; omega)).symm
  · have hused := buf.used_le last (hhead ▸ List.mem_append_right _ List.mem_cons_self)
    have hsum : blocks.flatten.length = blocks.length * buf.bsize := by
      rw [List.length_flatten, List.map_congr_left hfull, List.map_const', List.sum_replicate_nat]
    have hsize : buf.head.flatten.length = blocks.length * buf.bsize + last.length := by
      rw [hhead, List.flatten_append, List.length_append, hsum, List.flatten_singleton]
    have hlength : buf.head.length = blocks.length + 1 := by
      rw [hhead, List.length_append, List.length_singleton]
    rw [buf.size_eq, hsize, hlength]
    refine (Nat.div_eq_of_lt_le ?_ ?_).symm
    · rw [Nat.add_mul]
      omega
    · rw [Nat.add_mul, Nat.add_mul]
      omega

end Buffer

end koala.buffer

namespace koala.buffer.raw

set_option linter.style.nameCheck false

/-- A block with the memory it was allocated with. -/
structure Block where
  used : Nat
  data : List UInt8

/-- The buffer as the code keeps it: `size`, `blocks` and `bsize` are `uint32`. -/
structure Buffer where
  size : Nat
  blocks : Nat
  bsize : Nat
  head : List Block

def block_new (bsize : Nat) : Block := ⟨0, List.replicate bsize 0⟩

def Buffer_Init (bsize : Nat) : Buffer := ⟨0, 0, bsize, []⟩

/-- `memcpy(dest + off, src, n)`, where `dest` is a whole block of memory. -/
def memcpy (dest : List UInt8) (off : Nat) (src : List UInt8) : Res (List UInt8) :=
  if off + src.length ≤ dest.length then
    .ok (dest.take off ++ src ++ dest.drop (off + src.length))
  else .error .bounds

/-- The loop of `Buffer_Write`, which is given a number of steps. -/
def Buffer_Write.loop : Nat → Buffer → List UInt8 → Res Buffer
  | _, buf, [] => .ok buf
  | 0, _, _ => .error .fuel
  | fuel + 1, buf, data =>
    let left : Int := match buf.head.getLast? with
      | some block => buf.bsize - block.used
      | none => 0
    if left < 0 then .error .assertion
    else if left ≤ 0 then
      loop fuel { buf with
        head := buf.head ++ [block_new buf.bsize]
        blocks := (buf.blocks + 1) % 2 ^ 32 } data
    else
      match buf.head.getLast? with
      | none => .error .null
      | some block => do
        let sz := min left.toNat data.length
        let bytes ← memcpy block.data block.used (data.take sz)
        loop fuel { buf with
          head := buf.head.dropLast ++ [⟨block.used + sz, bytes⟩]
          size := (buf.size + sz) % 2 ^ 32 } (data.drop sz)

/-- Each byte takes two steps at most. -/
def Buffer_Write (buf : Buffer) (data : List UInt8) : Res Buffer :=
  Buffer_Write.loop (2 * data.length) buf data

/-- `ALIGN(size, 4)` on `uint32` -/
def align (size : Nat) : Nat := (size + 3) % 2 ^ 32 / 4 * 4

/-- The loop of `Buffer_RawData`, whose `size` is an `int`. -/
def Buffer_RawData.loop : List Block → List UInt8 → Nat → Res (List UInt8)
  | [], data, _ => .ok data
  | block :: rest, data, size => do
    let data ← memcpy data size (block.data.take block.used)
    let size ← addInt size block.used
    loop rest data size

def Buffer_RawData (buf : Buffer) : Res (List UInt8) :=
  Buffer_RawData.loop buf.head (List.replicate (align buf.size) 0) 0

/-- The bytes that a block uses. -/
def Block.bytes (block : Block) : List UInt8 := block.data.take block.used

/-- The blocks hold what the buffer `b` lists; the counters are its counts as far as they
are kept. -/
structure Holds (buf : Buffer) (b : buffer.Buffer) : Prop where
  bsize : buf.bsize = b.bsize
  head : buf.head.map Block.bytes = b.head
  data : ∀ block ∈ buf.head, block.data.length = buf.bsize ∧ block.used ≤ buf.bsize
  size : buf.size = b.size % 2 ^ 32
  blocks : buf.blocks = b.head.length % 2 ^ 32

theorem holds_init {bsize : Nat} (hpos : 0 < bsize) :
    Holds (Buffer_Init bsize) (buffer.Buffer_Init bsize hpos) where
  bsize := rfl
  head := rfl
  data := by simp [Buffer_Init]
  size := rfl
  blocks := rfl

section holds

variable {buf : Buffer} {b : buffer.Buffer}

theorem Block.length_bytes {block : Block} {n : Nat} (h : block.data.length = n ∧ block.used ≤ n) :
    block.bytes.length = block.used := by
  rw [Block.bytes, List.length_take, h.1]
  exact Nat.min_eq_left h.2

/-- What is left in the last block. -/
theorem Holds.left (h : Holds buf b) :
    (match buf.head.getLast? with
      | some block => (buf.bsize : Int) - block.used
      | none => 0) = (b.left : Int) := by
  rw [Buffer.left, ← h.head, List.getLast?_map, ← h.bsize]
  cases hlast : buf.head.getLast? with
  | none => rfl
  | some block =>
    have hdata := h.data block (List.mem_of_getLast? hlast)
    rw [Option.map_some]
    dsimp only
    rw [Block.length_bytes hdata]
    omega

theorem Holds.grow (h : Holds buf b) :
    Holds { buf with
      head := buf.head ++ [block_new buf.bsize]
      blocks := (buf.blocks + 1) % 2 ^ 32 } b.grow where
  bsize := h.bsize
  head := by
    rw [List.map_append, h.head]
    rfl
  data := by
    intro block hblock
    obtain hold | hnew := List.mem_append.mp hblock
    · exact h.data block hold
    · rw [List.mem_singleton.mp hnew]
      exact ⟨List.length_replicate, Nat.zero_le _⟩
  size := h.size
  blocks := by
    rw [h.blocks, Nat.mod_add_mod, Buffer.grow, List.length_append]
    rfl

/-- Bytes that fit are copied behind the used ones, inside the memory of the block. -/
theorem Holds.fill (h : Holds buf b) {data : List UInt8} (hleft : data.length ≤ b.left)
    (hpos : 0 < data.length) :
    ∃ block bytes, buf.head.getLast? = some block ∧ memcpy block.data block.used data = .ok bytes ∧
      Holds { buf with
        head := buf.head.dropLast ++ [⟨block.used + data.length, bytes⟩]
        size := (buf.size + data.length) % 2 ^ 32 } (b.fill data hleft hpos) := by
  have hleft' := h.left
  cases hlast : buf.head.getLast? with
  | none =>
    rw [hlast] at hleft'
    dsimp only at hleft'
    omega
  | some block =>
    rw [hlast] at hleft'
    dsimp only at hleft'
    obtain ⟨hdata, hused⟩ := h.data block (List.mem_of_getLast? hlast)
    have hroom : block.used + data.length ≤ block.data.length := by omega
    refine ⟨block, _, rfl, by rw [memcpy, if_pos hroom], ?_⟩
    have htake : (block.data.take block.used).length = block.used := by
      rw [List.length_take]
      omega
    refine ⟨h.bsize, ?_, fun c hc => ?_, ?_, ?_⟩
    · have hbytes : b.head.getLast?.getD [] = block.bytes := by
        rw [← h.head, List.getLast?_map, hlast]
        rfl
      rw [List.map_append, List.map_dropLast, h.head]
      refine congrArg (fun last => b.head.dropLast ++ [last]) ?_
      rw [hbytes, Block.bytes, List.take_append_of_le_length (by rw [List.length_append, htake]),
        List.take_of_length_le (by rw [List.length_append, htake])]
      rfl
    · obtain hold | hnew := List.mem_append.mp hc
      · exact h.data c (List.dropLast_subset _ hold)
      · rw [List.mem_singleton.mp hnew]
        dsimp only
        rw [List.length_append, List.length_append, htake, List.length_drop]
        omega
    · dsimp only
      rw [h.size, Nat.mod_add_mod]
      rfl
    · dsimp only
      rw [h.blocks, Buffer.fill]
      obtain ⟨blocks, last, hhead, _⟩ := b.head_of_left hleft hpos
      simp [hhead]

/-- A write ends, and does what the abstract one does. -/
theorem Holds.loop (h : Holds buf b) (data : List UInt8) (fuel : Nat)
    (hfuel : 2 * data.length ≤ fuel + if b.left = 0 then 0 else 1) :
    ∃ buf', Buffer_Write.loop fuel buf data = .ok buf' ∧ Holds buf' (buffer.Buffer_Write b data) := by
  induction b, data using buffer.Buffer_Write.induct generalizing buf fuel with
  | case1 b =>
    rw [buffer.Buffer_Write, dif_pos rfl]
    exact ⟨buf, by cases fuel <;> rfl, h⟩
  | case2 b data hdata hfull ih =>
    have hlength := List.length_pos_iff.mpr hdata
    rw [if_pos hfull] at hfuel
    obtain ⟨fuel, rfl⟩ : ∃ n, fuel = n + 1 := ⟨fuel - 1, by omega⟩
    have hroom := b.bsize_pos
    obtain ⟨buf', hloop, hholds⟩ := ih h.grow fuel (by
      rw [Buffer.left_grow, if_neg (Nat.pos_iff_ne_zero.mp hroom)]
      omega)
    refine ⟨buf', ?_, ?_⟩
    · rw [Buffer_Write.loop, h.left, hfull]
      · exact hloop
      · exact hdata
    · rw [buffer.Buffer_Write, dif_neg hdata, dif_pos hfull]
      exact hholds
  | case3 b data hdata hfull hpos ih =>
    have hlength := List.length_pos_iff.mpr hdata
    rw [if_neg hfull] at hfuel
    obtain ⟨fuel, rfl⟩ : ∃ n, fuel = n + 1 := ⟨fuel - 1, by omega⟩
    obtain ⟨block, bytes, hlast, hcopy, hfill⟩ := h.fill (List.length_take_le _ _) hpos
    obtain ⟨buf', hloop, hholds⟩ := ih hfill fuel (by
      rw [List.length_drop]
      omega)
    refine ⟨buf', ?_, ?_⟩
    · have hmin : (data.take b.left).length = min b.left data.length := List.length_take
      have htake : data.take (min b.left data.length) = data.take b.left :=
        List.take_eq_take_min.symm
      have hdrop : data.drop (min b.left data.length) = data.drop b.left :=
        List.drop_eq_drop_min.symm
      rw [Buffer_Write.loop, h.left]
      · dsimp only
        rw [if_neg (by omega), if_neg (by omega), hlast]
        dsimp only
        rw [Int.toNat_natCast, htake, hcopy, ok_bind, hdrop, ← hmin]
        exact hloop
      · exact hdata
    · rw [buffer.Buffer_Write, dif_neg hdata, dif_neg hfull]
      exact hholds

theorem Holds.write (h : Holds buf b) (data : List UInt8) :
    ∃ buf', Buffer_Write buf data = .ok buf' ∧ Holds buf' (buffer.Buffer_Write b data) :=
  h.loop data _ (Nat.le_add_right _ _)

theorem Holds.run (h : Holds buf b) (hpacked : b.Packed) (writes : List (List UInt8)) :
    ∃ buf' b', writes.foldlM Buffer_Write buf = .ok buf' ∧ Holds buf' b' ∧ b'.Packed ∧
      b'.bsize = b.bsize ∧ buffer.Buffer_RawData b' = buffer.Buffer_RawData b ++ writes.flatten := by
  induction writes generalizing buf b with
  | nil => exact ⟨buf, b, rfl, h, hpacked, rfl, (List.append_nil _).symm⟩
  | cons data writes ih =>
    obtain ⟨buf₁, hwrite, h₁⟩ := h.write data
    obtain ⟨buf', b', hrun, h', hpacked', hbsize, hraw⟩ := ih h₁ (hpacked.write data)
    refine ⟨buf', b', ?_, h', hpacked', ?_, ?_⟩
    · rw [List.foldlM_cons, hwrite, ok_bind, hrun]
    · rw [hbsize, bsize_write]
    · rw [hraw, rawData_write, List.append_assoc, List.flatten_cons]

end holds

/-- The blocks are copied one behind the other while the memory has room. -/
theorem rawData_loop (rest : List Block) (mem : List UInt8) (size : Nat)
    (hdata : ∀ block ∈ rest, block.used ≤ block.data.length)
    (hroom : size + (rest.map Block.bytes).flatten.length ≤ mem.length)
    (hint : size + (rest.map Block.bytes).flatten.length ≤ INT_MAX) :
    ∃ mem', Buffer_RawData.loop rest mem size = .ok mem' ∧
      mem'.take (size + (rest.map Block.bytes).flatten.length) =
        mem.take size ++ (rest.map Block.bytes).flatten := by
  induction rest generalizing mem size with
  | nil => exact ⟨mem, rfl, (List.append_nil _).symm⟩
  | cons block rest ih =>
    rw [List.map_cons, List.flatten_cons, List.length_append] at hroom hint ⊢
    have hused : block.bytes.length = block.used := by
      rw [Block.bytes, List.length_take]
      exact Nat.min_eq_left (hdata block List.mem_cons_self)
    rw [← Nat.add_assoc, hused] at hroom hint
    have hcopy : memcpy mem size block.bytes =
        .ok (mem.take size ++ block.bytes ++ mem.drop (size + block.bytes.length)) := by
      rw [memcpy, if_pos (by omega)]
    have htake : (mem.take size).length = size := by
      rw [List.length_take]
      omega
    obtain ⟨mem', hloop, hmem'⟩ := ih
      (mem.take size ++ block.bytes ++ mem.drop (size + block.bytes.length)) (size + block.used)
      (fun c hc => hdata c (List.mem_cons_of_mem block hc)) (by
        rw [List.length_append, List.length_append, htake, List.length_drop]
        omega) hint
    refine ⟨mem', ?_, ?_⟩
    · rw [Buffer_RawData.loop]
      change (memcpy mem size block.bytes >>= _) = _
      rw [hcopy, ok_bind, addInt, if_pos (by omega), ok_bind]
      exact hloop
    · rw [hused, ← Nat.add_assoc, hmem', ← List.append_assoc]
      refine congrArg (· ++ _) (List.take_left' ?_)
      rw [List.length_append, htake, hused]

/-- No `int` counts more bytes than it can. -/
theorem rawData_loop_int (rest : List Block) {mem mem' : List UInt8} {size : Nat}
    (hdata : ∀ block ∈ rest, block.used ≤ block.data.length) (hsize : size ≤ INT_MAX)
    (hloop : Buffer_RawData.loop rest mem size = .ok mem') :
    size + (rest.map Block.bytes).flatten.length ≤ INT_MAX := by
  induction rest generalizing mem size with
  | nil => exact hsize
  | cons block rest ih =>
    rw [Buffer_RawData.loop, bind_eq_ok_iff] at hloop
    obtain ⟨copied, _, hloop⟩ := hloop
    obtain ⟨sum, hsum, hloop⟩ := bind_eq_ok_iff.mp hloop
    obtain ⟨hle, rfl⟩ := addInt_eq_ok_iff.mp hsum
    have hrest := ih (fun c hc => hdata c (List.mem_cons_of_mem block hc)) hle hloop
    have hused : block.bytes.length = block.used := by
      rw [Block.bytes, List.length_take]
      exact Nat.min_eq_left (hdata block List.mem_cons_self)
    rw [List.map_cons, List.flatten_cons, List.length_append, hused, ← Nat.add_assoc]
    exact hrest

/-- Every write ends; the bytes come back in order; each block but the last is full
and none is written beyond its size; and there are no more blocks than needed. -/
def Keeps (bsize : Nat) (writes : List (List UInt8)) : Prop :=
  ∃ buf mem, writes.foldlM Buffer_Write (Buffer_Init bsize) = .ok buf ∧
    Buffer_RawData buf = .ok mem ∧ mem.take buf.size = writes.flatten ∧
    (∀ block ∈ buf.head.dropLast, block.used = bsize) ∧
    (∀ block ∈ buf.head, block.used ≤ bsize ∧ block.data.length = bsize) ∧
    buf.blocks = buf.head.length ∧
    buf.head.length = (writes.flatten.length + bsize - 1) / bsize

/-- What any writes lead to. -/
theorem run_holds {bsize : Nat} (hpos : 0 < bsize) (writes : List (List UInt8)) :
    ∃ buf b, writes.foldlM Buffer_Write (Buffer_Init bsize) = .ok buf ∧ Holds buf b ∧ b.Packed ∧
      b.bsize = bsize ∧ (buf.head.map Block.bytes).flatten = writes.flatten := by
  obtain ⟨buf, b, hrun, hholds, hpacked, hbsize, hraw⟩ :=
    (holds_init hpos).run (Or.inl rfl) writes
  refine ⟨buf, b, hrun, hholds, hpacked, hbsize, ?_⟩
  rw [hholds.head]
  exact hraw.trans (List.nil_append _)

theorem Keeps.total {bsize : Nat} (hpos : 0 < bsize) {writes : List (List UInt8)}
    (h : Keeps bsize writes) : writes.flatten.length ≤ INT_MAX := by
  obtain ⟨buf, b, hrun, hholds, _, _, hbytes⟩ := run_holds hpos writes
  obtain ⟨buf', mem, hrun', hraw, _⟩ := h
  obtain rfl := Except.ok.inj (hrun.symm.trans hrun')
  have hint := rawData_loop_int buf.head (fun block hblock => by
    obtain ⟨hdata, hused⟩ := hholds.data block hblock
    exact hdata ▸ hused) (Nat.zero_le _) hraw
  rwa [hbytes, Nat.zero_add] at hint

/-- There are no more blocks than bytes. -/
theorem ceil_le {bsize : Nat} (hpos : 0 < bsize) (total : Nat) :
    (total + bsize - 1) / bsize ≤ total := by
  cases total with
  | zero => exact Nat.le_of_eq (Nat.div_eq_of_lt (by omega))
  | succ total =>
    refine Nat.div_le_of_le_mul ?_
    have hmul := Nat.le_mul_of_pos_left total hpos
    rw [Nat.mul_succ]
    omega

/-- A buffer gives back all that is written to it if and only if that is less than 2 GiB. -/
theorem buffer_keeps_iff {bsize : Nat} (hpos : 0 < bsize) (writes : List (List UInt8)) :
    Keeps bsize writes ↔ writes.flatten.length ≤ INT_MAX := by
  refine ⟨Keeps.total hpos, fun htotal => ?_⟩
  obtain ⟨buf, b, hrun, hholds, hpacked, hbsize, hbytes⟩ := run_holds hpos writes
  have hint : INT_MAX = 2147483647 := rfl
  have hsize : buf.size = writes.flatten.length := by
    rw [hholds.size, b.size_eq, ← hholds.head, hbytes]
    exact Nat.mod_eq_of_lt (by omega)
  have hcount : b.head.length = (writes.flatten.length + bsize - 1) / bsize := by
    rw [hpacked.count, b.size_eq, ← hholds.head, hbytes, hbsize]
  have hlength : buf.head.length = b.head.length := by
    rw [← hholds.head, List.length_map]
  have hfew : b.head.length < 2 ^ 32 := by
    have hle := ceil_le hpos writes.flatten.length
    rw [hcount]
    omega
  obtain ⟨mem, hraw, hmem⟩ := rawData_loop buf.head (List.replicate (align buf.size) 0) 0
    (fun block hblock => by
      obtain ⟨hdata, hused⟩ := hholds.data block hblock
      exact hdata ▸ hused)
    (by
      rw [hbytes, List.length_replicate, hsize, align]
      omega)
    (by
      rw [hbytes, Nat.zero_add]
      exact htotal)
  refine ⟨buf, mem, hrun, hraw, ?_, ?_, ?_, ?_, ?_⟩
  · rw [hbytes, Nat.zero_add] at hmem
    rw [hsize, hmem]
    rfl
  · intro block hblock
    have hmem := List.mem_map_of_mem (f := Block.bytes) hblock
    rw [List.map_dropLast, hholds.head] at hmem
    have hfull := hpacked.dropLast block.bytes hmem
    rwa [Block.length_bytes (hholds.data block (List.dropLast_subset _ hblock)), hbsize] at hfull
  · intro block hblock
    obtain ⟨hdata, hused⟩ := hholds.data block hblock
    rw [hholds.bsize, hbsize] at hdata hused
    exact ⟨hused, hdata⟩
  · rw [hholds.blocks, hlength]
    exact Nat.mod_eq_of_lt hfew
  · rw [hlength, hcount]

/-- Five bytes in blocks of four. -/
theorem buffer_keeps_iff_five : Keeps 4 [[1, 2, 3], [4, 5]] :=
  (buffer_keeps_iff (by decide) _).mpr (by decide)

/-- One byte more than an `int` can count is not given back. -/
theorem not_buffer_keeps : ¬ Keeps 64 [List.replicate INT_MAX 0, [0]] := by
  intro h
  have htotal := h.total (by decide)
  rw [List.flatten_cons, List.length_append, List.length_replicate, List.flatten_singleton] at htotal
  exact absurd htotal (Nat.not_succ_le_self _)

end koala.buffer.raw
