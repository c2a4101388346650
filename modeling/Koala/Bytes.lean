import Koala.Basic
import Mathlib.Algebra.Order.Ring.Int

namespace koala

def GOLDEN_RATIO_PRIME_32 : Nat := 0x9e370001

/-- The only `bits` in use is 32, so all bits of the product are kept. -/
def hash_uint32 (val : Nat) : Nat := val * GOLDEN_RATIO_PRIME_32 % 2 ^ 32

/-- A C `int` converted to `uint32`. -/
def uint32 (val : Int) : Nat := (val % 2 ^ 32).toNat

/-- A `char` is signed: the high half of its values is sign-extended. -/
def charToUint32 (c : UInt8) : Nat :=
  if c.toNat < 128 then c.toNat else c.toNat + (2 ^ 32 - 256)

def hash_string (str : CString) : Nat :=
  str.bytes.foldl (fun val c => (val * 131 + charToUint32 c) % 2 ^ 32) 0

end koala

namespace koala

/-- The range of a C `int`. -/
def FitsInt (i : Int) : Prop := -2 ^ 31 ≤ i ∧ i < 2 ^ 31

theorem FitsInt.of_nat {n : Nat} (h : n < 2 ^ 31) : FitsInt n := by
  unfold FitsInt
  omega

theorem FitsInt.toInt (v : BitVec 32) : FitsInt v.toInt :=
  ⟨v.le_toInt, v.toInt_lt⟩

/-- A `uint32` converted to a C `int`. -/
def int32 (n : Nat) : Int := if n < 2 ^ 31 then n else n - 2 ^ 32

theorem int32_uint32 {i : Int} (h : FitsInt i) : int32 (uint32 i) = i := by
  obtain ⟨hle, hlt⟩ := h
  unfold int32 uint32
  split <;> omega

theorem uint32_lt (i : Int) : uint32 i < 2 ^ 32 := by
  unfold uint32
  omega

theorem uint32_nat {n : Nat} (h : n < 2 ^ 32) : uint32 n = n := by
  unfold uint32
  omega

namespace bytes

/-- The four bytes of a 32-bit word, the lowest first. -/
def le32 (n : Nat) : List UInt8 :=
  [UInt8.ofNat n, UInt8.ofNat (n / 2 ^ 8), UInt8.ofNat (n / 2 ^ 16), UInt8.ofNat (n / 2 ^ 24)]

/-- The 32-bit word that starts some bytes. -/
def word : List UInt8 → Nat
  | b₀ :: b₁ :: b₂ :: b₃ :: _ =>
    b₀.toNat + b₁.toNat * 2 ^ 8 + b₂.toNat * 2 ^ 16 + b₃.toNat * 2 ^ 24
  | _ => 0

@[simp] theorem length_le32 (n : Nat) : (le32 n).length = 4 := rfl

theorem word_le32 {n : Nat} (h : n < 2 ^ 32) (rest : List UInt8) :
    word (le32 n ++ rest) = n := by
  simp only [le32, word, List.cons_append, UInt8.toNat_ofNat']
  omega

def words (ws : List Nat) : List UInt8 := ws.flatMap le32

/-- The first `n` words of some bytes. -/
def ofBytes : Nat → List UInt8 → List Nat
  | 0, _ => []
  | n + 1, data => word data :: ofBytes n (data.drop 4)

@[simp] theorem words_nil : words [] = [] := rfl

@[simp] theorem words_cons (w : Nat) (ws : List Nat) :
    words (w :: ws) = le32 w ++ words ws := rfl

@[simp] theorem length_words (ws : List Nat) : (words ws).length = 4 * ws.length := by
  induction ws with
  | nil => rfl
  | cons w ws ih =>
    rw [words_cons, List.length_append, ih, length_le32, List.length_cons]
    omega

theorem ofBytes_words {ws : List Nat} (h : ∀ w ∈ ws, w < 2 ^ 32) (rest : List UInt8) :
    ofBytes ws.length (words ws ++ rest) = ws := by
  induction ws with
  | nil => rfl
  | cons w ws ih =>
    have htail := ih fun v hv => h v (List.mem_cons_of_mem w hv)
    rw [List.length_cons, words_cons, List.append_assoc, ofBytes,
      word_le32 (h w List.mem_cons_self), List.drop_left' (length_le32 _), htail]

/-- The first `n` elements of `size` bytes. -/
def chunks (size : Nat) : Nat → List UInt8 → List (List UInt8)
  | 0, _ => []
  | n + 1, data => data.take size :: chunks size n (data.drop size)

section elements

variable {α : Type} {write : α → List UInt8} {size : Nat}

theorem length_flatMap_of_length (hsize : ∀ x, (write x).length = size) (l : List α) :
    (l.flatMap write).length = l.length * size := by
  induction l with
  | nil => simp
  | cons x l ih =>
    rw [List.flatMap_cons, List.length_append, hsize, ih, List.length_cons, Nat.succ_mul,
      Nat.add_comm]

/-- Elements of one size that were written one after the other are cut apart. -/
theorem chunks_flatMap (hsize : ∀ x, (write x).length = size) (l : List α)
    (rest : List UInt8) : chunks size l.length (l.flatMap write ++ rest) = l.map write := by
  induction l with
  | nil => rfl
  | cons x l ih =>
    rw [List.length_cons, chunks, List.flatMap_cons, List.append_assoc,
      List.take_left' (hsize x), List.drop_left' (hsize x), ih, List.map_cons]

end elements

end bytes

end koala
