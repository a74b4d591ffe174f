import FOSketch.Common
import FOSketch.Absorb

/-!
# `SpookyV2`

The hash of the enclave. A message is memory with an offset and a length.
-/

namespace FOSketch.Spooky

open Memory Absorb

/-! ## Mixing -/

def sc_numVars : Nat := 12
def sc_blockSize : Nat := sc_numVars * 8
def sc_bufSize : Nat := 2 * sc_blockSize
def sc_const : UInt64 := 0xdeadbeefdeadbeef

def Rot64 (x : UInt64) (k : Nat) : UInt64 := (x <<< UInt64.ofNat k) ||| (x >>> UInt64.ofNat (64 - k))

def mixLine (data s : Vector UInt64 12) (i : Fin 12) (rot : Nat) : Vector UInt64 12 :=
  let s := put s i (s.get i + data.get i)
  let s := put s (i + 2) (s.get (i + 2) ^^^ s.get (i + 10))
  let s := put s (i + 11) (s.get (i + 11) ^^^ s.get i)
  let s := put s i (Rot64 (s.get i) rot)
  put s (i + 11) (s.get (i + 11) + s.get (i + 1))

def Mix (data s : Vector UInt64 12) : Vector UInt64 12 :=
  [(0, 11), (1, 32), (2, 43), (3, 31), (4, 17), (5, 28), (6, 39), (7, 57), (8, 55), (9, 54), (10, 22), (11, 46)].foldl
    (fun s line => mixLine data s line.1 line.2) s

def endLine (h : Vector UInt64 12) (i : Fin 12) (rot : Nat) : Vector UInt64 12 :=
  let h := put h i (h.get i + h.get (i + 2))
  let h := put h (i + 3) (h.get (i + 3) ^^^ h.get i)
  put h (i + 2) (Rot64 (h.get (i + 2)) rot)

def EndPartial (h : Vector UInt64 12) : Vector UInt64 12 :=
  [(11, 44), (0, 15), (1, 34), (2, 21), (3, 38), (4, 33), (5, 10), (6, 13), (7, 38), (8, 53), (9, 42), (10, 54)].foldl
    (fun h line => endLine h line.1 line.2) h

def End (data h : Vector UInt64 12) : Vector UInt64 12 :=
  EndPartial (EndPartial (EndPartial (Vector.zipWith (· + ·) h data)))

def shortMixLine (h : Vector UInt64 4) (i : Fin 4) (rot : Nat) : Vector UInt64 4 :=
  let h := put h i (Rot64 (h.get i) rot)
  let h := put h i (h.get i + h.get (i + 1))
  put h (i + 2) (h.get (i + 2) ^^^ h.get i)

def ShortMix (h : Vector UInt64 4) : Vector UInt64 4 :=
  [(2, 50), (3, 52), (0, 30), (1, 41), (2, 54), (3, 48), (0, 38), (1, 37), (2, 62), (3, 34), (0, 5), (1, 36)].foldl
    (fun h line => shortMixLine h line.1 line.2) h

def shortEndLine (h : Vector UInt64 4) (i : Fin 4) (rot : Nat) : Vector UInt64 4 :=
  let h := put h i (h.get i ^^^ h.get (i + 3))
  let h := put h (i + 3) (Rot64 (h.get (i + 3)) rot)
  put h i (h.get i + h.get (i + 3))

def ShortEnd (h : Vector UInt64 4) : Vector UInt64 4 :=
  [(3, 15), (0, 52), (1, 26), (2, 51), (3, 28), (0, 9), (1, 47), (2, 54), (3, 32), (0, 25), (1, 63)].foldl
    (fun h line => shortEndLine h line.1 line.2) h

/-! ## Short messages -/

/-- The bytes, the lowest first. -/
def word (l : List Byte) : UInt64 := UInt64.ofNat (Nat.ofDigits 256 (l.map Fin.val))

def p64 (m : Nat → Byte) (s k : Nat) : UInt64 := word (load m (s + 8 * k) 8)

def p32 (m : Nat → Byte) (s k : Nat) : UInt64 := word (load m (s + 4 * k) 4)

def p8 (m : Nat → Byte) (s k : Nat) : UInt64 := UInt64.ofNat (m (s + k)).val

/-- The `switch` over the last bytes: `c` and `d`. -/
def lastBytes (m : Nat → Byte) (s remainder : Nat) (c d : UInt64) : UInt64 × UInt64 :=
  if 12 ≤ remainder then
    let d := if remainder = 15 then d + (p8 m s 14 <<< 48) else d
    let d := if 14 ≤ remainder then d + (p8 m s 13 <<< 40) else d
    let d := if 13 ≤ remainder then d + (p8 m s 12 <<< 32) else d
    (c + p64 m s 0, d + p32 m s 2)
  else if 8 ≤ remainder then
    let d := if remainder = 11 then d + (p8 m s 10 <<< 16) else d
    let d := if 10 ≤ remainder then d + (p8 m s 9 <<< 8) else d
    let d := if 9 ≤ remainder then d + p8 m s 8 else d
    (c + p64 m s 0, d)
  else if 4 ≤ remainder then
    let c := if remainder = 7 then c + (p8 m s 6 <<< 48) else c
    let c := if 6 ≤ remainder then c + (p8 m s 5 <<< 40) else c
    let c := if 5 ≤ remainder then c + (p8 m s 4 <<< 32) else c
    (c + p32 m s 0, d)
  else if 1 ≤ remainder then
    let c := if remainder = 3 then c + (p8 m s 2 <<< 16) else c
    let c := if 2 ≤ remainder then c + (p8 m s 1 <<< 8) else c
    (c + p8 m s 0, d)
  else (c + sc_const, d + sc_const)

/-- `c += u.p64[0]; d += u.p64[1]; ShortMix(a,b,c,d);` on the variables `a`, `b`, `c`, `d`. -/
def shortHalf (m : Nat → Byte) (s : Nat) (h : Vector UInt64 4) : Vector UInt64 4 :=
  ShortMix (put (put h 2 (h.get 2 + p64 m s 0)) 3 (h.get 3 + p64 m s 1))

def shortSet (m : Nat → Byte) (s : Nat) (h : Vector UInt64 4) : Vector UInt64 4 :=
  let h := shortHalf m s h
  put (put h 0 (h.get 0 + p64 m s 2)) 1 (h.get 1 + p64 m s 3)

/-- `Short`: `*hash1` and `*hash2` before and after. -/
def Short (m : Nat → Byte) (s length : Nat) (hash1 hash2 : UInt64) : UInt64 × UInt64 :=
  let remainder := length % 32
  let h := #v[hash1, hash2, sc_const, sc_const]
  let (h, s, remainder) :=
    if 15 < length then
      let h := blocks 32 shortSet m s (length / 32) h
      let s := s + 32 * (length / 32)
      if 16 ≤ remainder then (shortHalf m s h, s + 16, remainder - 16) else (h, s, remainder)
    else (h, s, remainder)
  let last := lastBytes m s remainder (h.get 2) (h.get 3 + (UInt64.ofNat length <<< 56))
  let h := ShortEnd (put (put h 2 last.1) 3 last.2)
  (h.get 0, h.get 1)

/-! ## The hash in one call -/

/-- `Mix` of the block from `s` on. -/
def mixBlock (m : Nat → Byte) (s : Nat) (h : Vector UInt64 12) : Vector UInt64 12 := Mix (Vector.ofFn fun i => p64 m s i) h

/-- The variables before the first block. -/
def startVars (hash1 hash2 : UInt64) : Vector UInt64 12 :=
  #v[hash1, hash2, sc_const, hash1, hash2, sc_const, hash1, hash2, sc_const, hash1, hash2, sc_const]

/-- `memset` and the length behind the last `remainder` bytes of the block from `s` on. -/
def padBlock (buf : Nat → Byte) (s remainder : Nat) : Nat → Byte :=
  let buf := copy buf (s + remainder) (fun _ => 0) 0 (sc_blockSize - remainder)
  Function.update buf (s + (sc_blockSize - 1)) (toByte remainder)

/-- `Hash128`: `*hash1` and `*hash2` before and after; `buf` is what the local array holds on entry. -/
def Hash128 (buf : Nat → Byte) (m : Nat → Byte) (s length : Nat) (hash1 hash2 : UInt64) : UInt64 × UInt64 :=
  if length < sc_bufSize then Short m s length hash1 hash2
  else
    let h := blocks sc_blockSize mixBlock m s (length / sc_blockSize) (startVars hash1 hash2)
    let last := s + sc_blockSize * (length / sc_blockSize)
    let remainder := length - sc_blockSize * (length / sc_blockSize)
    let buf := padBlock (copy buf 0 m last remainder) 0 remainder
    let h := End (Vector.ofFn fun i => p64 buf 0 i) h
    (h.get 0, h.get 1)

def Hash64 (buf : Nat → Byte) (m : Nat → Byte) (s length : Nat) (seed : UInt64) : UInt64 :=
  (Hash128 buf m s length seed seed).1

def Hash32 (buf : Nat → Byte) (m : Nat → Byte) (s length : Nat) (seed : U32) : U32 :=
  Fin.ofNat 4294967296 (Hash128 buf m s length (UInt64.ofNat seed.val) (UInt64.ofNat seed.val)).1.toNat

/-! ## The hash in pieces -/

structure SpookyHash where
  m_data : Nat → Byte
  m_state : Vector UInt64 12
  m_length : Nat
  m_remainder : Nat

def Init (h : SpookyHash) (seed1 seed2 : UInt64) : SpookyHash :=
  { h with m_length := 0, m_remainder := 0, m_state := put (put h.m_state 0 seed1) 1 seed2 }

def Update (h : SpookyHash) (m : Nat → Byte) (s length : Nat) : SpookyHash :=
  let newLength := (length + h.m_remainder) % 18446744073709551616
  if newLength < sc_bufSize then
    { h with
      m_data := copy h.m_data h.m_remainder m s length
      m_length := (length + h.m_length) % 18446744073709551616
      m_remainder := newLength % 256 }
  else
    let vars := if h.m_length < sc_bufSize then startVars (h.m_state.get 0) (h.m_state.get 1) else h.m_state
    let m_length := (length + h.m_length) % 18446744073709551616
    let (m_data, vars, s, length) :=
      if h.m_remainder ≠ 0 then
        let front := sc_bufSize - h.m_remainder
        let m_data := copy h.m_data h.m_remainder m s front
        let vars := mixBlock m_data sc_blockSize (mixBlock m_data 0 vars)
        (m_data, vars, s + front, length - front)
      else (h.m_data, vars, s, length)
    let vars := blocks sc_blockSize mixBlock m s (length / sc_blockSize) vars
    let last := s + sc_blockSize * (length / sc_blockSize)
    let remainder := (length - sc_blockSize * (length / sc_blockSize)) % 256
    { m_data := copy m_data 0 m last remainder
      m_state := vars
      m_length := m_length
      m_remainder := remainder }

/-- `Final`: the hash, and the members, as it pads `m_data`. -/
def Final (h : SpookyHash) : (UInt64 × UInt64) × SpookyHash :=
  if h.m_length < sc_bufSize then (Short h.m_data 0 h.m_length (h.m_state.get 0) (h.m_state.get 1), h)
  else
    let (vars, data, remainder) :=
      if sc_blockSize ≤ h.m_remainder then (mixBlock h.m_data 0 h.m_state, sc_blockSize, h.m_remainder - sc_blockSize)
      else (h.m_state, 0, h.m_remainder)
    let m_data := padBlock h.m_data data remainder
    let vars := End (Vector.ofFn fun i => p64 m_data data i) vars
    ((vars.get 0, vars.get 1), { h with m_data := m_data })

/-! ## What of the message counts -/

section Reads

variable {m m' : Nat → Byte} {s s' n : Nat}

theorem p64_congr (h : load m s n = load m' s' n) {k : Nat} (hk : 8 * k + 8 ≤ n) : p64 m s k = p64 m' s' k := by
  rw [p64, p64, load_slice h _ hk]

theorem p32_congr (h : load m s n = load m' s' n) {k : Nat} (hk : 4 * k + 4 ≤ n) : p32 m s k = p32 m' s' k := by
  rw [p32, p32, load_slice h _ hk]

theorem p8_congr (h : load m s n = load m' s' n) {k : Nat} (hk : k < n) : p8 m s k = p8 m' s' k := by
  have hbyte := load_slice h k (j := 1) hk
  rw [load_succ, load_succ] at hbyte
  simp only [load, List.range_zero, List.map_nil, List.nil_append, List.cons.injEq, Nat.add_zero, and_true] at hbyte
  rw [p8, p8, hbyte]

theorem lastBytes_congr (h : load m s n = load m' s' n) (hn : n < 16) (c d : UInt64) :
    lastBytes m s n c d = lastBytes m' s' n c d := by
  unfold lastBytes
  split_ifs <;> simp (disch := omega) only [p64_congr h, p32_congr h, p8_congr h]

theorem shortHalf_congr (h : load m s 16 = load m' s' 16) (v : Vector UInt64 4) : shortHalf m s v = shortHalf m' s' v := by
  simp only [shortHalf, p64_congr (k := 0) h (by omega), p64_congr (k := 1) h (by omega)]

theorem shortSet_local : Local 32 shortSet := by
  intro m m' s s' v h
  have hhalf := shortHalf_congr (load_slice h 0 (j := 16) (by omega)) v
  rw [Nat.add_zero, Nat.add_zero] at hhalf
  simp only [shortSet, hhalf, p64_congr (k := 2) h (by omega), p64_congr (k := 3) h (by omega)]

theorem mixBlock_local : Local sc_blockSize mixBlock := by
  intro m m' s s' v h
  have hwords : (fun i : Fin 12 => p64 m s i) = fun i : Fin 12 => p64 m' s' i :=
    funext fun i => p64_congr h (by have := i.isLt; unfold sc_blockSize sc_numVars; omega)
  rw [mixBlock, mixBlock, hwords]

/-- The branch on messages of at most 15 bytes does what the other does. -/
theorem Short_eq (m : Nat → Byte) (s length : Nat) (hash1 hash2 : UInt64) :
    Short m s length hash1 hash2 =
      let h := blocks 32 shortSet m s (length / 32) #v[hash1, hash2, sc_const, sc_const]
      let half := 16 ≤ length % 32
      let h := if half then shortHalf m (s + 32 * (length / 32)) h else h
      let last := lastBytes m (s + 16 * (length / 16)) (length % 16) (h.get 2) (h.get 3 + (UInt64.ofNat length <<< 56))
      let h := ShortEnd (put (put h 2 last.1) 3 last.2)
      (h.get 0, h.get 1) := by
  unfold Short
  dsimp only
  by_cases hlong : 15 < length
  · rw [if_pos hlong]
    by_cases hhalf : 16 ≤ length % 32
    · rw [if_pos hhalf, if_pos hhalf, show s + 32 * (length / 32) + 16 = s + 16 * (length / 16) by omega,
        show length % 32 - 16 = length % 16 by omega]
    · rw [if_neg hhalf, if_neg hhalf, show s + 32 * (length / 32) = s + 16 * (length / 16) by omega,
        show length % 32 = length % 16 by omega]
  · rw [if_neg hlong, if_neg (by omega), show length / 32 = 0 by omega, show length / 16 = 0 by omega,
      show length % 32 = length % 16 by omega]
    rfl

theorem Short_congr (h : load m s n = load m' s' n) (hash1 hash2 : UInt64) :
    Short m s n hash1 hash2 = Short m' s' n hash1 hash2 := by
  have hsets := blocks_congr shortSet_local #v[hash1, hash2, sc_const, sc_const] (k := n / 32)
    (by simpa using load_slice h 0 (j := 32 * (n / 32)) (by omega))
  have hlast := lastBytes_congr (n := n % 16) (load_slice h (16 * (n / 16)) (by omega)) (by omega)
  rw [Short_eq, Short_eq, hsets]
  simp only [hlast]
  by_cases hhalf : 16 ≤ n % 32
  · simp only [if_pos hhalf, shortHalf_congr (load_slice h (32 * (n / 32)) (by omega))]
  · simp only [if_neg hhalf]

end Reads

/-! ## The last block -/

theorem words_congr {m m' : Nat → Byte} {s s' : Nat} (h : load m s sc_blockSize = load m' s' sc_blockSize) :
    (Vector.ofFn fun i : Fin 12 => p64 m s i) = Vector.ofFn fun i : Fin 12 => p64 m' s' i := by
  have hwords : (fun i : Fin 12 => p64 m s i) = fun i : Fin 12 => p64 m' s' i :=
    funext fun i => p64_congr h (by have := i.isLt; unfold sc_blockSize sc_numVars; omega)
  rw [hwords]

/-- The last block holds the bytes that are left, zeros and how many they are. -/
theorem load_padBlock (buf : Nat → Byte) (s : Nat) {r : Nat} (hr : r < sc_blockSize) :
    load (padBlock buf s r) s sc_blockSize = load buf s r ++ (List.replicate (sc_blockSize - 1 - r) 0 ++ [toByte r]) := by
  obtain ⟨z, hz⟩ := Nat.exists_eq_add_of_lt hr
  have hzeros : load (copy buf (s + r) (fun _ => 0) 0 (r + z + 1 - r)) (s + r) z = List.replicate z 0 := by
    have hcopied : load (copy buf (s + r) (fun _ => 0) 0 (r + z + 1 - r)) (s + r) z = load (fun _ => 0) 0 z :=
      load_congr fun k hk => copy_of_inside (by omega)
    rw [hcopied]
    simp [load]
  rw [padBlock, hz, Nat.add_sub_cancel, load_update_end, load_add, load_copy_before buf le_rfl, hzeros,
    Nat.add_sub_cancel_left, List.append_assoc]

theorem load_padBlock_congr {buf buf' : Nat → Byte} {s s' r : Nat} (hr : r < sc_blockSize)
    (h : load buf s r = load buf' s' r) :
    load (padBlock buf s r) s sc_blockSize = load (padBlock buf' s' r) s' sc_blockSize := by
  rw [load_padBlock buf s hr, load_padBlock buf' s' hr, h]

/-- The hash is a function of the `length` bytes of the message, and of nothing that lies in memory next to them. -/
theorem Hash128_congr {m m' : Nat → Byte} {s s' length : Nat} (h : load m s length = load m' s' length)
    (buf buf' : Nat → Byte) (hash1 hash2 : UInt64) :
    Hash128 buf m s length hash1 hash2 = Hash128 buf' m' s' length hash1 hash2 := by
  unfold Hash128
  by_cases hshort : length < sc_bufSize
  · rw [if_pos hshort, if_pos hshort, Short_congr h]
  · rw [if_neg hshort, if_neg hshort]
    have hsplit := Nat.div_add_mod length sc_blockSize
    have hr : length - sc_blockSize * (length / sc_blockSize) < sc_blockSize := by
      have := Nat.mod_lt length (show 0 < sc_blockSize by decide)
      omega
    have hblocks := blocks_congr mixBlock_local (startVars hash1 hash2) (k := length / sc_blockSize)
      (by simpa using load_slice h 0 (j := sc_blockSize * (length / sc_blockSize)) (by omega))
    have hrest := load_slice h (sc_blockSize * (length / sc_blockSize))
      (j := length - sc_blockSize * (length / sc_blockSize)) (by omega)
    have hlast := words_congr (load_padBlock_congr hr
      ((load_copy buf 0 _ _ _).trans (hrest.trans (load_copy buf' 0 _ _ _).symm)))
    simp only [hblocks, hlast]

theorem Hash128_congr_key :
    load (fun k => toByte k) 3 4 = load (fun k => toByte (if k < 4 then k + 3 else 0)) 0 4 ∧
      Hash128 (fun _ => 0) (fun k => toByte k) 3 4 5 9 =
        Hash128 (fun _ => 1) (fun k => toByte (if k < 4 then k + 3 else 0)) 0 4 5 9 :=
  ⟨by decide, Hash128_congr (by decide) _ _ 5 9⟩

/-! ## Nothing is lost in mixing -/

theorem Rot64_toBitVec (x : UInt64) {k : Nat} (h0 : 0 < k) (hk : k < 64) :
    (Rot64 x k).toBitVec = x.toBitVec.rotateLeft k := by
  have hcount {j : Nat} (hj : j < 64) : ((UInt64.ofNat j).toBitVec % 64).toNat = j := by
    rw [BitVec.toNat_umod, UInt64.toNat_toBitVec, UInt64.toNat_ofNat_of_lt' (by change j < 18446744073709551616; omega)]
    exact Nat.mod_eq_of_lt hj
  rw [Rot64, UInt64.toBitVec_or, UInt64.toBitVec_shiftLeft, UInt64.toBitVec_shiftRight, BitVec.shiftLeft_eq',
    BitVec.ushiftRight_eq', hcount hk, hcount (by omega), BitVec.rotateLeft_def, Nat.mod_eq_of_lt hk]

theorem Rot64_Rot64 (x : UInt64) {k : Nat} (h0 : 0 < k) (hk : k < 64) : Rot64 (Rot64 x k) (64 - k) = x := by
  apply UInt64.toBitVec_inj.mp
  rw [Rot64_toBitVec _ (by omega) (by omega), Rot64_toBitVec x h0 hk]
  ext i hi
  simp only [BitVec.getElem_rotateLeft]
  grind

theorem Rot64_bijective {k : Nat} (h0 : 0 < k) (hk : k < 64) : Function.Bijective fun x => Rot64 x k := by
  refine Function.bijective_iff_has_inverse.mpr ⟨fun x => Rot64 x (64 - k), fun x => Rot64_Rot64 x h0 hk, fun x => ?_⟩
  simpa [show 64 - (64 - k) = k by omega] using Rot64_Rot64 x (k := 64 - k) (by omega) (by omega)

section Lines

variable {n : Nat}

theorem addWord_bijective (i : Fin n) (x : UInt64) : Function.Bijective fun s : Vector UInt64 n => put s i (s.get i + x) :=
  put_bijective i (fun _ y => y + x) (fun _ _ => rfl) fun _ => (Equiv.addRight x).bijective

theorem addWords_bijective (data : Vector UInt64 n) :
    Function.Bijective fun s : Vector UInt64 n => Vector.zipWith (· + ·) s data := by
  refine Function.bijective_iff_has_inverse.mpr ⟨fun s => Vector.zipWith (· - ·) s data, fun s => ?_, fun s => ?_⟩
  · ext i hi
    simp
  · ext i hi
    simp

theorem addVar_bijective {i j : Fin n} (h : i ≠ j) :
    Function.Bijective fun s : Vector UInt64 n => put s i (s.get i + s.get j) :=
  put_bijective i (fun s y => y + s.get j) (fun s x => by rw [get_put_of_ne s h]) fun s =>
    (Equiv.addRight (s.get j)).bijective

theorem xorVar_bijective {i j : Fin n} (h : i ≠ j) :
    Function.Bijective fun s : Vector UInt64 n => put s i (s.get i ^^^ s.get j) := by
  refine put_bijective i (fun s y => y ^^^ s.get j) (fun s x => by rw [get_put_of_ne s h]) fun s => ?_
  have hself (x : UInt64) : x ^^^ s.get j ^^^ s.get j = x := by
    rw [UInt64.xor_assoc, UInt64.xor_self, UInt64.xor_zero]
  exact Function.bijective_iff_has_inverse.mpr ⟨fun y => y ^^^ s.get j, hself, hself⟩

theorem rotVar_bijective (i : Fin n) {rot : Nat} (h0 : 0 < rot) (hrot : rot < 64) :
    Function.Bijective fun s : Vector UInt64 n => put s i (Rot64 (s.get i) rot) :=
  put_bijective i (fun _ y => Rot64 y rot) (fun _ _ => rfl) fun _ => Rot64_bijective h0 hrot

end Lines

theorem mixLine_bijective (data : Vector UInt64 12) (i : Fin 12) {rot : Nat} (h0 : 0 < rot) (hrot : rot < 64) :
    Function.Bijective fun s => mixLine data s i rot := by
  have hfirst := addWord_bijective i (data.get i)
  have hsecond := xorVar_bijective (show i + 2 ≠ i + 10 by simp)
  have hthird := xorVar_bijective (show i + 11 ≠ i by simp)
  have hfourth := rotVar_bijective i h0 hrot
  have hfifth := addVar_bijective (show i + 11 ≠ i + 1 by simp)
  exact hfifth.comp (hfourth.comp (hthird.comp (hsecond.comp hfirst)))

theorem endLine_bijective (i : Fin 12) {rot : Nat} (h0 : 0 < rot) (hrot : rot < 64) :
    Function.Bijective fun h => endLine h i rot := by
  have hfirst := addVar_bijective (show i ≠ i + 2 by simp)
  have hsecond := xorVar_bijective (show i + 3 ≠ i by simp)
  have hthird := rotVar_bijective (i + 2) h0 hrot
  exact hthird.comp (hsecond.comp hfirst)

theorem shortMixLine_bijective (i : Fin 4) {rot : Nat} (h0 : 0 < rot) (hrot : rot < 64) :
    Function.Bijective fun h => shortMixLine h i rot := by
  have hfirst := rotVar_bijective i h0 hrot
  have hsecond := addVar_bijective (show i ≠ i + 1 by simp)
  have hthird := xorVar_bijective (show i + 2 ≠ i by simp)
  exact hthird.comp (hsecond.comp hfirst)

theorem shortEndLine_bijective (i : Fin 4) {rot : Nat} (h0 : 0 < rot) (hrot : rot < 64) :
    Function.Bijective fun h => shortEndLine h i rot := by
  have hfirst := xorVar_bijective (show i ≠ i + 3 by simp)
  have hsecond := rotVar_bijective (i + 3) h0 hrot
  have hthird := addVar_bijective (show i ≠ i + 3 by simp)
  exact hthird.comp (hsecond.comp hfirst)

theorem Mix_bijective (data : Vector UInt64 12) : Function.Bijective (Mix data) := by
  refine foldl_bijective fun line hline => mixLine_bijective data line.1 ?_ ?_ <;> revert line <;> decide

theorem EndPartial_bijective : Function.Bijective EndPartial := by
  refine foldl_bijective fun line hline => endLine_bijective line.1 ?_ ?_ <;> revert line <;> decide

theorem ShortMix_bijective : Function.Bijective ShortMix := by
  refine foldl_bijective fun line hline => shortMixLine_bijective line.1 ?_ ?_ <;> revert line <;> decide

theorem ShortEnd_bijective : Function.Bijective ShortEnd := by
  refine foldl_bijective fun line hline => shortEndLine_bijective line.1 ?_ ?_ <;> revert line <;> decide

theorem End_bijective (data : Vector UInt64 12) : Function.Bijective (End data) := by
  have hend : End data = EndPartial ∘ EndPartial ∘ EndPartial ∘ fun h => Vector.zipWith (· + ·) h data := by
    funext h
    rw [End, Function.comp_apply, Function.comp_apply, Function.comp_apply]
  rw [hend]
  exact EndPartial_bijective.comp (EndPartial_bijective.comp (EndPartial_bijective.comp (addWords_bijective data)))

/-- Every mixing function is a permutation of the states, whatever the data: no two states are ever merged. -/
theorem mixing_bijective (data : Vector UInt64 12) : Function.Bijective (Mix data) ∧ Function.Bijective (End data) ∧
    Function.Bijective ShortMix ∧ Function.Bijective ShortEnd :=
  ⟨Mix_bijective data, End_bijective data, ShortMix_bijective, ShortEnd_bijective⟩

/-! ## The hash in pieces is the hash of the whole -/

/-- The message `l` in memory. -/
def text (l : List Byte) : Nat → Byte := store (fun _ => 0) 0 l

theorem load_text (l : List Byte) {s n : Nat} (h : s + n ≤ l.length) : load (text l) s n = (l.drop s).take n := by
  have htext : load (text l) 0 l.length = l := load_store _ _ _
  conv_rhs => rw [← htext]
  rw [load_drop, load_take, Nat.zero_add, min_eq_left (by omega)]

/-- The variables of the mixing: a short message has kept the seeds only. -/
def vars (h : SpookyHash) : Vector UInt64 12 :=
  if h.m_length < sc_bufSize then startVars (h.m_state.get 0) (h.m_state.get 1) else h.m_state

theorem startVars_inj {a b c d : UInt64} (h : startVars a b = startVars c d) : a = c ∧ b = d :=
  ⟨congrArg (fun v => v.get 0) h, congrArg (fun v => v.get 1) h⟩

/-- The object has seen the message `l`: `blocks` blocks of it are mixed, the rest is stuffed away. -/
structure Holds (seed1 seed2 : UInt64) (h : SpookyHash) (l : List Byte) : Prop where
  m_length : h.m_length = l.length
  m_remainder : h.m_remainder < sc_bufSize
  mixed : ∃ k, l.length = sc_blockSize * k + h.m_remainder ∧
    load h.m_data 0 h.m_remainder = l.drop (sc_blockSize * k) ∧
    vars h = blocks sc_blockSize mixBlock (text l) 0 k (startVars seed1 seed2) ∧
    (l.length < sc_bufSize → k = 0)

theorem holds_Init (h : SpookyHash) (seed1 seed2 : UInt64) : Holds seed1 seed2 (Init h seed1 seed2) [] where
  m_length := rfl
  m_remainder := show 0 < sc_bufSize by decide
  mixed := by
    refine ⟨0, rfl, rfl, ?_, fun _ => rfl⟩
    have hempty : (Init h seed1 seed2).m_length < sc_bufSize := show 0 < sc_bufSize by decide
    rw [vars, if_pos hempty, blocks_zero]
    have hne : (1 : Fin 12) ≠ 0 := by decide
    simp [Init, get_put_of_ne _ hne]

theorem blocks_text {l : List Byte} {m : Nat → Byte} {s k q : Nat} (v : Vector UInt64 12)
    (hq : sc_blockSize * (k + q) ≤ l.length)
    (h : load m s (sc_blockSize * q) = (l.drop (sc_blockSize * k)).take (sc_blockSize * q)) :
    blocks sc_blockSize mixBlock m s q (blocks sc_blockSize mixBlock (text l) 0 k v) =
      blocks sc_blockSize mixBlock (text l) 0 (k + q) v := by
  rw [blocks_add, Nat.zero_add]
  refine blocks_congr mixBlock_local _ (h.trans (load_text l ?_).symm)
  rwa [← Nat.mul_add]

theorem blocks_text_append {l : List Byte} {k : Nat} (f : List Byte) (v : Vector UInt64 12)
    (hk : sc_blockSize * k ≤ l.length) :
    blocks sc_blockSize mixBlock (text (l ++ f)) 0 k v = blocks sc_blockSize mixBlock (text l) 0 k v := by
  refine blocks_congr mixBlock_local v ?_
  rw [load_text l (by omega), load_text (l ++ f) (by rw [List.length_append]; omega), List.drop_zero, List.drop_zero,
    List.take_append_of_le_length hk]

/-- The last part of `Update`: what is left of the message after `k` blocks is mixed, but for the last few bytes. -/
theorem blocks_rest {l : List Byte} {m : Nat → Byte} {s k n : Nat} (v : Vector UInt64 12)
    (h : load m s n = l.drop (sc_blockSize * k)) (hk : sc_blockSize * k ≤ l.length) :
    blocks sc_blockSize mixBlock m s (n / sc_blockSize) (blocks sc_blockSize mixBlock (text l) 0 k v) =
        blocks sc_blockSize mixBlock (text l) 0 (k + n / sc_blockSize) v ∧
      load m (s + sc_blockSize * (n / sc_blockSize)) (n - sc_blockSize * (n / sc_blockSize)) =
        l.drop (sc_blockSize * (k + n / sc_blockSize)) := by
  have hn : n = l.length - sc_blockSize * k := by simpa using congrArg List.length h
  have hq := Nat.mul_div_le n sc_blockSize
  have hadd := Nat.mul_add sc_blockSize k (n / sc_blockSize)
  constructor
  · apply blocks_text v (by omega)
    rw [← h, load_take, min_eq_left hq]
  · rw [← load_drop, h, List.drop_drop, hadd]

section Update

variable {seed1 seed2 : UInt64} {h : SpookyHash} {l : List Byte}

/-- A fragment that is too short is stuffed away. -/
theorem Holds.stuff (hh : Holds seed1 seed2 h l) (m : Nat → Byte) (s : Nat) {length : Nat}
    (hshort : length + h.m_remainder < sc_bufSize) (hlength : length + l.length < 18446744073709551616) :
    Holds seed1 seed2 (Update h m s length) (l ++ load m s length) := by
  obtain ⟨k, hk, hdata, hvars, hzero⟩ := hh.mixed
  have hm := hh.m_length
  have hkeep : Update h m s length = { h with
      m_data := copy h.m_data h.m_remainder m s length
      m_length := length + h.m_length
      m_remainder := length + h.m_remainder } := by
    have hbuf : sc_bufSize = 192 := rfl
    rw [Update, Nat.mod_eq_of_lt (by omega), Nat.mod_eq_of_lt (by omega), Nat.mod_eq_of_lt (by omega)]
    exact if_pos hshort
  have hfront := load_copy_before h.m_data (s := 0) (n := h.m_remainder) (d := h.m_remainder) (by omega) m s length
  rw [hkeep]
  refine ⟨by simp [hm, Nat.add_comm], hshort, k, by simp; omega, ?_, ?_, ?_⟩
  · change load (copy h.m_data h.m_remainder m s length) 0 (length + h.m_remainder) = _
    rw [Nat.add_comm, load_add, Nat.zero_add, load_copy, hfront, hdata, List.drop_append_of_le_length (by omega)]
  · rw [blocks_text_append _ _ (by omega), ← hvars, vars, vars]
    by_cases hlt : h.m_length < sc_bufSize
    · rw [hzero (by omega)] at hk
      rw [if_pos hlt]
      exact if_pos (show length + h.m_length < sc_bufSize by omega)
    · rw [if_neg hlt]
      exact if_neg (show ¬length + h.m_length < sc_bufSize by omega)
  · intro hlt
    rw [List.length_append] at hlt
    exact hzero (by omega)

theorem Holds.absorb (hh : Holds seed1 seed2 h l) (m : Nat → Byte) (s : Nat) {length : Nat}
    (hlong : sc_bufSize ≤ length + h.m_remainder) (hlength : length + l.length < 18446744073709551616) :
    Holds seed1 seed2 (Update h m s length) (l ++ load m s length) := by
  obtain ⟨k, hk, hdata, hvars, -⟩ := hh.mixed
  have hm := hh.m_length
  have hbuf : sc_bufSize = 2 * sc_blockSize := rfl
  have hremainder (n : Nat) : (n - sc_blockSize * (n / sc_blockSize)) % 256 = n - sc_blockSize * (n / sc_blockSize) := by
    have := Nat.mod_lt n (show 0 < sc_blockSize by decide)
    have := Nat.div_add_mod n sc_blockSize
    have : sc_blockSize = 96 := rfl
    omega
  have hsum : (length + h.m_remainder) % 18446744073709551616 = length + h.m_remainder := Nat.mod_eq_of_lt (by omega)
  have htotal : (length + h.m_length) % 18446744073709551616 = length + h.m_length := Nat.mod_eq_of_lt (by omega)
  have hmixed {k' : Nat} {data : Nat → Byte} {s' n : Nat} (hk' : sc_blockSize * k' ≤ (l ++ load m s length).length)
      (hrest : load m s' n = (l ++ load m s length).drop (sc_blockSize * k')) :
      Holds seed1 seed2
        { m_data := copy data 0 m (s' + sc_blockSize * (n / sc_blockSize)) (n - sc_blockSize * (n / sc_blockSize))
          m_state := blocks sc_blockSize mixBlock m s' (n / sc_blockSize)
            (blocks sc_blockSize mixBlock (text (l ++ load m s length)) 0 k' (startVars seed1 seed2))
          m_length := length + h.m_length
          m_remainder := n - sc_blockSize * (n / sc_blockSize) } (l ++ load m s length) := by
    obtain ⟨hblocks, hlast⟩ := blocks_rest (startVars seed1 seed2) hrest hk'
    have hn : n = (l ++ load m s length).length - sc_blockSize * k' := by simpa using congrArg List.length hrest
    have hadd := Nat.mul_add sc_blockSize k' (n / sc_blockSize)
    have hle := Nat.mul_div_le n sc_blockSize
    have hlt := Nat.lt_mul_div_succ n (show 0 < sc_blockSize by decide)
    rw [List.length_append, length_load] at hn hk'
    refine ⟨by simp [hm, Nat.add_comm], ?_, k' + n / sc_blockSize, ?_, by rw [load_copy, hlast], ?_, ?_⟩
    · change n - sc_blockSize * (n / sc_blockSize) < sc_bufSize
      rw [Nat.mul_add] at hlt
      omega
    · rw [List.length_append, length_load]
      dsimp only
      omega
    · rw [vars, if_neg (show ¬length + h.m_length < sc_bufSize by omega), hblocks]
    · rw [List.length_append, length_load]
      omega
  unfold Update
  simp only [hsum, htotal, hremainder, if_neg (not_lt.mpr hlong)]
  rw [← vars, hvars, ← blocks_text_append (load m s length) _ (by omega)]
  by_cases hrem : h.m_remainder = 0
  · rw [if_neg (not_not.mpr hrem)]
    refine hmixed (by rw [List.length_append]; omega) ?_
    rw [List.drop_left' (by omega)]
  · rw [if_pos hrem]
    have hfull : load (copy h.m_data h.m_remainder m s (sc_bufSize - h.m_remainder)) 0 (sc_blockSize * 2) =
        ((l ++ load m s length).drop (sc_blockSize * k)).take (sc_blockSize * 2) := by
      rw [show sc_blockSize * 2 = h.m_remainder + (sc_bufSize - h.m_remainder) by have := hh.m_remainder; omega, load_add,
        Nat.zero_add, load_copy, load_copy_before _ (by omega), hdata, List.drop_append_of_le_length (by omega),
        List.take_append, List.take_of_length_le (by rw [List.length_drop]; omega), load_take, List.length_drop]
      congr 2
      omega
    have htwo (data : Nat → Byte) (v : Vector UInt64 12) :
        mixBlock data sc_blockSize (mixBlock data 0 v) = blocks sc_blockSize mixBlock data 0 2 v := by
      rw [blocks_succ, blocks_one, Nat.zero_add, Nat.mul_one]
    dsimp only
    have hadd := Nat.mul_add sc_blockSize k 2
    have hle : sc_blockSize * (k + 2) ≤ (l ++ load m s length).length := by
      rw [List.length_append, length_load]
      omega
    rw [htwo, blocks_text _ hle hfull]
    refine hmixed hle ?_
    rw [List.drop_append, List.drop_of_length_le (by have := hh.m_remainder; omega), List.nil_append, load_drop]
    congr 1 <;> omega

theorem Holds.update (hh : Holds seed1 seed2 h l) (m : Nat → Byte) (s : Nat) {length : Nat}
    (hlength : length + l.length < 18446744073709551616) :
    Holds seed1 seed2 (Update h m s length) (l ++ load m s length) := by
  rcases lt_or_ge (length + h.m_remainder) sc_bufSize with hshort | hlong
  · exact hh.stuff m s hshort hlength
  · exact hh.absorb m s hlong hlength

/-- What lies behind the bytes that are stuffed away does not count. -/
theorem Holds.of_data (hh : Holds seed1 seed2 h l) {data : Nat → Byte}
    (hdata : load data 0 h.m_remainder = load h.m_data 0 h.m_remainder) :
    Holds seed1 seed2 { h with m_data := data } l := by
  obtain ⟨k, hk, hload, hvars, hzero⟩ := hh.mixed
  exact ⟨hh.m_length, hh.m_remainder, k, hk, hdata.trans hload, hvars, hzero⟩

theorem load_padBlock_before (buf : Nat → Byte) (s : Nat) {r : Nat} (hr : r < sc_blockSize) :
    load (padBlock buf s r) 0 (s + r) = load buf 0 (s + r) := by
  rw [padBlock, load_update_outside _ (Or.inr (by omega)), load_copy_before buf (by omega)]

/-- The hash of a long message from wherever its last bytes lie. -/
theorem Hash128_text (buf : Nat → Byte) {l : List Byte} {q r : Nat} (hl : l.length = sc_blockSize * q + r)
    (hr : r < sc_blockSize) (hlong : sc_bufSize ≤ l.length) {data : Nat → Byte} {d : Nat}
    (hdata : load data d r = l.drop (sc_blockSize * q)) (seed1 seed2 : UInt64) :
    let v := End (Vector.ofFn fun i => p64 (padBlock data d r) d i)
      (blocks sc_blockSize mixBlock (text l) 0 q (startVars seed1 seed2))
    Hash128 buf (text l) 0 l.length seed1 seed2 = (v.get 0, v.get 1) := by
  have hq : l.length / sc_blockSize = q := by
    rw [hl, Nat.mul_add_div (by decide), Nat.div_eq_of_lt hr, Nat.add_zero]
  have hlast : load (text l) (sc_blockSize * q) r = l.drop (sc_blockSize * q) := by
    rw [load_text l (by omega), List.take_of_length_le (by rw [List.length_drop]; omega)]
  have hwords := words_congr (load_padBlock_congr hr
    (hdata.trans (hlast.symm.trans (load_copy buf 0 (text l) (sc_blockSize * q) r).symm)))
  rw [Hash128, if_neg (not_lt.mpr hlong), hq, Nat.zero_add, hl, Nat.add_sub_cancel_left, hwords]

theorem Holds.final (hh : Holds seed1 seed2 h l) (buf : Nat → Byte) :
    (Final h).1 = Hash128 buf (text l) 0 l.length seed1 seed2 ∧ Holds seed1 seed2 (Final h).2 l := by
  obtain ⟨k, hk, hdata, hvars, hzero⟩ := hh.mixed
  have hm := hh.m_length
  unfold Final
  by_cases hshort : h.m_length < sc_bufSize
  · rw [if_pos hshort, Hash128, if_pos (by omega), hm]
    refine ⟨?_, hh⟩
    have hk0 := hzero (by omega)
    rw [vars, if_pos hshort, hk0, blocks_zero] at hvars
    obtain ⟨hseed1, hseed2⟩ := startVars_inj hvars
    rw [hseed1, hseed2]
    rw [hk0, Nat.mul_zero, Nat.zero_add] at hk
    apply Short_congr
    rw [load_text l (by omega), hk, hdata, hk0, Nat.mul_zero, List.drop_zero, List.take_of_length_le (by omega)]
  · rw [if_neg hshort]
    rw [vars, if_neg hshort] at hvars
    by_cases hblock : sc_blockSize ≤ h.m_remainder
    · simp only [if_pos hblock]
      have hr : h.m_remainder - sc_blockSize < sc_blockSize := by
        have := hh.m_remainder
        have : sc_bufSize = sc_blockSize + sc_blockSize := rfl
        omega
      have hend := load_padBlock_before h.m_data sc_blockSize hr
      have hmix : mixBlock h.m_data 0 h.m_state =
          blocks sc_blockSize mixBlock (text l) 0 (k + 1) (startVars seed1 seed2) := by
        have hblocks : load h.m_data 0 (sc_blockSize * 1) = (l.drop (sc_blockSize * k)).take (sc_blockSize * 1) := by
          rw [Nat.mul_one, ← hdata, load_take, min_eq_left hblock]
        have htext := blocks_text (startVars seed1 seed2) (by rw [Nat.mul_succ]; omega) hblocks
        rwa [blocks_one, ← hvars] at htext
      have hrest : load h.m_data sc_blockSize (h.m_remainder - sc_blockSize) = l.drop (sc_blockSize * (k + 1)) := by
        rw [Nat.mul_succ, ← List.drop_drop, ← hdata, load_drop, Nat.zero_add]
      rw [Nat.add_sub_cancel' hblock] at hend
      refine ⟨?_, hh.of_data hend⟩
      rw [hmix, Hash128_text buf (q := k + 1) (by rw [Nat.mul_succ]; omega) hr (by omega) hrest]
    · simp only [if_neg hblock]
      have hend := load_padBlock_before h.m_data 0 (not_le.mp hblock)
      rw [Nat.zero_add] at hend
      refine ⟨?_, hh.of_data hend⟩
      rw [hvars, Hash128_text buf hk (not_le.mp hblock) (by omega) hdata]

end Update

/-! ## Runs -/

inductive Call where
  | update (m : Nat → Byte) (s length : Nat)
  | final

/-- What the calls of `Final` report. -/
def run (h : SpookyHash) : List Call → List (UInt64 × UInt64)
  | [] => []
  | Call.update m s length :: calls => run (Update h m s length) calls
  | Call.final :: calls => (Final h).1 :: run (Final h).2 calls

def total : List Call → Nat
  | [] => 0
  | Call.update _ _ length :: calls => length + total calls
  | Call.final :: calls => total calls

/-- The hashes of the concatenation of all message fragments so far, which `l` is at first. -/
def reports (hash : List Byte → UInt64 × UInt64) (l : List Byte) : List Call → List (UInt64 × UInt64)
  | [] => []
  | Call.update m s length :: calls => reports hash (l ++ load m s length) calls
  | Call.final :: calls => hash l :: reports hash l calls

theorem Holds.run {seed1 seed2 : UInt64} {h : SpookyHash} {l : List Byte} (hh : Holds seed1 seed2 h l) (buf : Nat → Byte)
    {calls : List Call} (htotal : total calls + l.length < 18446744073709551616) :
    Spooky.run h calls = reports (fun l => Hash128 buf (text l) 0 l.length seed1 seed2) l calls := by
  induction calls generalizing h l with
  | nil => rfl
  | cons call calls ih =>
    cases call with
    | update m s length =>
      rw [total] at htotal
      exact ih (hh.update m s (by omega)) (by rw [List.length_append, length_load]; omega)
    | final =>
      obtain ⟨hhash, hkeep⟩ := hh.final buf
      rw [Spooky.run, reports, hhash, ih hkeep htotal]

/-- Whatever the cuts of a message are and wherever hashes are reported on the way, `Final` reports the hash of the
concatenation of all message fragments so far. -/
theorem run_Init (h : SpookyHash) (seed1 seed2 : UInt64) (buf : Nat → Byte) {calls : List Call}
    (htotal : total calls < 18446744073709551616) :
    run (Init h seed1 seed2) calls = reports (fun l => Hash128 buf (text l) 0 l.length seed1 seed2) [] calls :=
  (holds_Init h seed1 seed2).run buf htotal

theorem run_Init_three :
    let calls := [Call.update toByte 0 15, Call.final, Call.update toByte 15 185, Call.final, Call.update toByte 200 300,
      Call.final]
    total calls < 18446744073709551616 ∧
      run (Init ⟨fun _ => 7, Vector.ofFn fun _ => 7, 7, 7⟩ 5 9) calls =
        reports (fun l => Hash128 (fun _ => 0) (text l) 0 l.length 5 9) [] calls :=
  ⟨by decide, run_Init ⟨fun _ => 7, Vector.ofFn fun _ => 7, 7, 7⟩ 5 9 (fun _ => 0) (by decide)⟩

end FOSketch.Spooky
