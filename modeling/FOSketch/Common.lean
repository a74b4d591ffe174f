import Mathlib

/-!
# Types and constants of `CommonUtil.h`

Unsigned machine integers are `Fin` types, so that they wrap as in C. `int` values, which only `rand` and the sorters
use, are `Int`.
-/

namespace FOSketch

abbrev Byte := Fin 256

abbrev Bid := Fin 65536

abbrev U32 := Fin 4294967296

instance neZero_byte : NeZero 256 := ⟨by decide⟩

instance neZero_bid : NeZero 65536 := ⟨by decide⟩

instance neZero_u32 : NeZero 4294967296 := ⟨by decide⟩

def toByte (n : Nat) : Byte := Fin.ofNat 256 n

def toBid (n : Nat) : Bid := Fin.ofNat 65536 n

@[simp] theorem toByte_val (n : Nat) : (toByte n).val = n % 256 := rfl

@[simp] theorem toBid_val (n : Nat) : (toBid n).val = n % 65536 := rfl

def toInt32 (x : Int) : Int := Int.bmod x 4294967296

/-! ## Constants -/

def DUMMY_FLAG : Bid := 65535
def DUMMY_FLOW : U32 := 4294967295
def MAX_SIZE : U32 := 4294967295

def CACHE_LINE : Nat := 64
def GCM_IV_SIZE : Nat := 12
def CUSKETCH_MEM : Nat := 460800
def HEAVY_MEM : Nat := 131072
def TOTAL_MEM : Nat := CUSKETCH_MEM + HEAVY_MEM
def HEAVY_PAIR_SIZE : Nat := 8
def NUM_HEAVY : Nat := HEAVY_MEM / HEAVY_PAIR_SIZE
def SIZE_BUCKET : Nat := 5
def SIZE_BLOCK : Nat := 64

def BT_FACTOR : Nat := 4
def BT_BUCKET_SIZE : Nat := 16
def BT_BUCKET_MAX_SIZE : Nat := 32
def BT_BUCKET_MAX_NUM : Nat := 100
def BT_BUCKET_NUM : Nat := NUM_HEAVY * 2 * BT_FACTOR / BT_BUCKET_SIZE

def ST_BUCKET_SIZE : Nat := 7
def ST_TABLE_MEM : Nat := 229376
def ST_BUCKET_NUM : Nat := 4096
def ST_STASH_NUM : Nat := 1000

def MAX_STASH_NUM : Nat := 105
def DEFAULT_STASH_LENGTH : Nat := 5
def PACE_STASH : Nat := 5

def sizeofBid : Nat := 2

def sizeofItem : Nat := 8

/-! ## Records -/

structure Item where
  flowID : U32
  size : U32
  deriving DecidableEq, Repr

structure CDist where
  size : U32
  count : U32
  deriving DecidableEq, Repr

/-- `ShufflePair` without its padding words, which nothing reads. -/
structure ShufflePair where
  index : Bid
  elem : Item
  deriving DecidableEq, Repr

/-! ## `rand` -/

def toU32 (r : Int) : Nat := (r % 4294967296).toNat

def toSize (r : Int) : Nat := (r % 18446744073709551616).toNat

/-! ## Primitives -/

/-- `OMove`: the conditional move every oblivious routine is made of. -/
def OMove {α : Type*} (x y : α) (cond : Bool) : α := if cond then x else y

@[simp] theorem OMove_true {α : Type*} (x y : α) : OMove x y true = x := rfl

@[simp] theorem OMove_false {α : Type*} (x y : α) : OMove x y false = y := rfl

/-- `testPo2`, with `ceil(log2(num))` read as the rounded-up binary logarithm. -/
def testPo2 (num : Nat) : Bool := num == 2 ^ Nat.clog 2 num

theorem testPo2_iff {num : Nat} : testPo2 num = true ↔ ∃ e, num = 2 ^ e := by
  rw [testPo2, beq_iff_eq]
  constructor
  · exact fun h => ⟨_, h⟩
  · rintro ⟨e, rfl⟩
    rw [Nat.clog_pow 2 e (by omega)]

end FOSketch
