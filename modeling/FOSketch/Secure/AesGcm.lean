import FOSketch.Common

/-!
# The cipher

OpenSSL is a parameter of the model: `Evp` holds what its calls write and return, `Evp.Lawful` what the code relies on.
The cipher that the code selects, `EVP_aes_128_gcm` with 12-byte IVs and no associated data, is lawful
(`aesGcm_lawful`): the keystream is added twice, and the tag is one of the ciphertext.
-/

namespace FOSketch.Secure

/-! ## The cipher -/

/-- The calls to OpenSSL's AES-GCM: the bytes they write, the tag, and whether `EVP_DecryptFinal_ex` returns a positive
number. The arguments are the key, the IV and the input, with the tag last. -/
structure Evp where
  EncryptUpdate : List Byte → List Byte → List Byte → List Byte
  EncryptFinal : List Byte → List Byte → List Byte → List Byte
  tag : List Byte → List Byte → List Byte → List Byte
  DecryptUpdate : List Byte → List Byte → List Byte → List Byte
  DecryptFinal : List Byte → List Byte → List Byte → List Byte → List Byte
  verified : List Byte → List Byte → List Byte → List Byte → Bool

/-- What was encrypted is as long as the plaintext, and is decrypted under the same key, IV and tag. -/
structure Evp.Lawful (e : Evp) : Prop where
  length_encrypt : ∀ key iv p, (e.EncryptUpdate key iv p ++ e.EncryptFinal key iv p).length = p.length
  decrypt_encrypt : ∀ key iv p, let c := e.EncryptUpdate key iv p ++ e.EncryptFinal key iv p
    e.DecryptUpdate key iv c ++ e.DecryptFinal key iv c (e.tag key iv p) = p
  verified_encrypt : ∀ key iv p, let c := e.EncryptUpdate key iv p ++ e.EncryptFinal key iv p
    e.verified key iv c (e.tag key iv p) = true

/-! ## AES-128 -/

def sbox : List Nat :=
  [99, 124, 119, 123, 242, 107, 111, 197, 48, 1, 103, 43, 254, 215, 171, 118, 202, 130, 201, 125, 250, 89, 71, 240,
   173, 212, 162, 175, 156, 164, 114, 192, 183, 253, 147, 38, 54, 63, 247, 204, 52, 165, 229, 241, 113, 216, 49, 21,
   4, 199, 35, 195, 24, 150, 5, 154, 7, 18, 128, 226, 235, 39, 178, 117, 9, 131, 44, 26, 27, 110, 90, 160,
   82, 59, 214, 179, 41, 227, 47, 132, 83, 209, 0, 237, 32, 252, 177, 91, 106, 203, 190, 57, 74, 76, 88, 207,
   208, 239, 170, 251, 67, 77, 51, 133, 69, 249, 2, 127, 80, 60, 159, 168, 81, 163, 64, 143, 146, 157, 56, 245,
   188, 182, 218, 33, 16, 255, 243, 210, 205, 12, 19, 236, 95, 151, 68, 23, 196, 167, 126, 61, 100, 93, 25, 115,
   96, 129, 79, 220, 34, 42, 144, 136, 70, 238, 184, 20, 222, 94, 11, 219, 224, 50, 58, 10, 73, 6, 36, 92,
   194, 211, 172, 98, 145, 149, 228, 121, 231, 200, 55, 109, 141, 213, 78, 169, 108, 86, 244, 234, 101, 122, 174, 8,
   186, 120, 37, 46, 28, 166, 180, 198, 232, 221, 116, 31, 75, 189, 139, 138, 112, 62, 181, 102, 72, 3, 246, 14,
   97, 53, 87, 185, 134, 193, 29, 158, 225, 248, 152, 17, 105, 217, 142, 148, 155, 30, 135, 233, 206, 85, 40, 223,
   140, 161, 137, 13, 191, 230, 66, 104, 65, 153, 45, 15, 176, 84, 187, 22]

def subByte (b : Nat) : Nat := sbox.getD b 0

def xorBytes (l r : List Nat) : List Nat := List.zipWith (· ^^^ ·) l r

/-- The next round key. -/
def nextKey (key : List Nat) (rcon : Nat) : List Nat :=
  let last := (key.drop 12).map subByte
  let t := xorBytes (last.drop 1 ++ last.take 1) [rcon, 0, 0, 0]
  let w0 := xorBytes (key.take 4) t
  let w1 := xorBytes ((key.drop 4).take 4) w0
  let w2 := xorBytes ((key.drop 8).take 4) w1
  let w3 := xorBytes (key.drop 12) w2
  w0 ++ w1 ++ w2 ++ w3

def shiftRows (s : List Nat) : List Nat := (List.range 16).map fun i => s.getD ((i + 4 * (i % 4)) % 16) 0

def double (b : Nat) : Nat := if 2 * b < 256 then 2 * b else (2 * b) ^^^ 283

def mixColumns (s : List Nat) : List Nat :=
  (List.range 16).map fun i =>
    let at' := fun j => s.getD (i / 4 * 4 + (i + j) % 4) 0
    double (at' 0) ^^^ double (at' 1) ^^^ at' 1 ^^^ at' 2 ^^^ at' 3

def rounds : List Nat → List Nat → List Nat → List Nat
  | [], _, s => s
  | [rcon], key, s => xorBytes (shiftRows (s.map subByte)) (nextKey key rcon)
  | rcon :: rcons, key, s => rounds rcons (nextKey key rcon) (xorBytes (mixColumns (shiftRows (s.map subByte))) (nextKey key rcon))

def aes (key block : List Nat) : List Nat := rounds [1, 2, 4, 8, 16, 32, 64, 128, 27, 54] key (xorBytes block key)

/-! ## Counter mode -/

/-- `n` bytes of a number, the highest first. -/
def bytesBE (n x : Nat) : List Nat := (List.range n).reverse.map fun k => x / 256 ^ k % 256

def natBE (l : List Nat) : Nat := l.foldl (fun x b => 256 * x + b) 0

def keystream (key iv : List Byte) (k : Nat) : Byte :=
  toByte ((aes (key.map Fin.val) (iv.map Fin.val ++ bytesBE 4 (2 + k / 16))).getD (k % 16) 0)

def xorByte (a b : Byte) : Byte := ⟨a.val ^^^ b.val, show _ < 2 ^ 8 from Nat.xor_lt_two_pow a.isLt b.isLt⟩

def xorStream (key iv l : List Byte) : List Byte := l.zipIdx.map fun b => xorByte b.1 (keystream key iv b.2)

/-- The product in the field of `2 ^ 128` elements, with the bits of `x` from the highest one on. -/
def gmul (x y : Nat) : Nat :=
  ((List.range 128).reverse.foldl (fun zv k =>
    (if x.testBit k then zv.1 ^^^ zv.2 else zv.1,
      if zv.2 % 2 = 1 then zv.2 / 2 ^^^ 299076299051606071403356588563077529600 else zv.2 / 2)) (0, y)).1

def ghash (h : Nat) (blocks : List Nat) : Nat := blocks.foldl (fun y x => gmul (y ^^^ x) h) 0

def blocksOf (l : List Nat) : List Nat :=
  (List.range ((l.length + 15) / 16)).map fun i => natBE ((List.range 16).map fun k => l.getD (16 * i + k) 0)

def tagOf (key iv c : List Byte) : List Byte :=
  let h := natBE (aes (key.map Fin.val) (List.replicate 16 0))
  let s := ghash h (blocksOf (c.map Fin.val) ++ [8 * c.length])
  let j0 := natBE (aes (key.map Fin.val) (iv.map Fin.val ++ [0, 0, 0, 1]))
  (bytesBE 16 (s ^^^ j0)).map toByte

def aesGcm : Evp where
  EncryptUpdate := xorStream
  EncryptFinal := fun _ _ _ => []
  tag := fun key iv p => tagOf key iv (xorStream key iv p)
  DecryptUpdate := xorStream
  DecryptFinal := fun _ _ _ _ => []
  verified := fun key iv c mac => mac == tagOf key iv c

/-! ## Decryption -/

theorem xorByte_xorByte (a b : Byte) : xorByte (xorByte a b) b = a :=
  Fin.ext (show a.val ^^^ b.val ^^^ b.val = a.val by rw [Nat.xor_assoc, Nat.xor_self, Nat.xor_zero])

theorem xorStream_xorStream (key iv l : List Byte) : xorStream key iv (xorStream key iv l) = l := by
  apply List.ext_getElem?
  intro k
  unfold xorStream
  rw [List.getElem?_map, List.getElem?_zipIdx, List.getElem?_map, List.getElem?_zipIdx]
  cases l[k]? with
  | none => rfl
  | some b => simp [xorByte_xorByte]

theorem aesGcm_lawful : aesGcm.Lawful where
  length_encrypt := fun key iv p => by simp [aesGcm, xorStream]
  decrypt_encrypt := by
    intro key iv p
    simp only [aesGcm, List.append_nil]
    exact xorStream_xorStream key iv p
  verified_encrypt := fun key iv p => by simp [aesGcm]

/-- A block of zeros under the zero key and IV. -/
example : aesGcm.EncryptUpdate (List.replicate 16 0) (List.replicate 12 0) (List.replicate 16 0) =
    [3, 136, 218, 206, 96, 182, 163, 146, 243, 40, 194, 185, 113, 178, 254, 120] ∧
    aesGcm.tag (List.replicate 16 0) (List.replicate 12 0) (List.replicate 16 0) =
      [171, 110, 71, 212, 44, 236, 19, 189, 245, 58, 103, 178, 18, 87, 189, 223] := by decide +kernel

end FOSketch.Secure
