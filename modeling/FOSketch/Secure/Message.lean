import FOSketch.Memory
import FOSketch.Secure.AesGcm

/-!
# `Message.c` and the cipher calls of `CommonUtil.c`

A packed message carries the IV in front of the ciphertext. The IV is a counter that is increased after every message, so
it does not repeat before all of its values were used (`packAll_nodup`), and unpacking under the same key gives back what
was packed (`unpack_packed`).
-/

namespace FOSketch.Secure

open Memory

/-! ## The counter -/

/-- `incr_ctr` on the bytes of the counter; a `char` wraps as a byte does. -/
def incr_ctr : List Byte → List Byte
  | [] => []
  | b :: ctr => if b + 1 ≠ 0 then (b + 1) :: ctr else (b + 1) :: incr_ctr ctr

/-- The counter as a number, the first byte the lowest. -/
def ctrVal (ctr : List Byte) : Nat := Nat.ofDigits 256 (ctr.map Fin.val)

@[simp] theorem length_incr_ctr (ctr : List Byte) : (incr_ctr ctr).length = ctr.length := by
  induction ctr with
  | nil => rfl
  | cons b ctr ih =>
    unfold incr_ctr
    split_ifs
    · rfl
    · rw [List.length_cons, ih, List.length_cons]

theorem ctrVal_cons (b : Byte) (ctr : List Byte) : ctrVal (b :: ctr) = b.val + 256 * ctrVal ctr := by
  rw [ctrVal, List.map_cons, Nat.ofDigits_cons]
  rfl

theorem ctrVal_lt (ctr : List Byte) : ctrVal ctr < 256 ^ ctr.length := by
  have hdigits : ∀ d ∈ ctr.map Fin.val, d < 256 := by
    intro d hd
    obtain ⟨b, -, rfl⟩ := List.mem_map.mp hd
    exact b.isLt
  have hlt := Nat.ofDigits_lt_base_pow_length (by decide) hdigits
  rwa [List.length_map] at hlt

/-- **The counter counts**, modulo the number of its values. -/
theorem ctrVal_incr_ctr (ctr : List Byte) : ctrVal (incr_ctr ctr) = (ctrVal ctr + 1) % 256 ^ ctr.length := by
  induction ctr with
  | nil => rfl
  | cons b ctr ih =>
    have hb := b.isLt
    have hlt := ctrVal_lt ctr
    have hsucc : (b + 1).val = (b.val + 1) % 256 := rfl
    rw [incr_ctr, ctrVal_cons, List.length_cons, pow_succ']
    by_cases h : b + 1 = 0
    · have hlast : b.val = 255 := by
        rw [h] at hsucc
        have hzero : (0 : Byte).val = 0 := rfl
        omega
      rw [if_neg (not_not.mpr h), ctrVal_cons, h, ih, hlast, ← Nat.mul_mod_mul_left]
      exact (Nat.zero_add _).trans (congrArg (· % _) (by ring))
    · have hval : (b + 1).val = b.val + 1 := by
        have hne : (b + 1).val ≠ 0 := fun h0 => h (Fin.ext h0)
        omega
      rw [if_pos h, ctrVal_cons, hval, Nat.mod_eq_of_lt (by omega)]
      ring

/-! ## Encryption -/

/-- `gcm_encrypt`: the memory with the ciphertext at `ciphertext`, the tag, and the length. -/
def gcm_encrypt (e : Evp) (plaintext key iv : List Byte) (mem : Nat → Byte) (ciphertext : Nat) :
    (Nat → Byte) × List Byte × Int :=
  let update := e.EncryptUpdate key iv plaintext
  let final := e.EncryptFinal key iv plaintext
  (store (store mem ciphertext update) (ciphertext + update.length) final, e.tag key iv plaintext,
    update.length + final.length)

/-- `gcm_decrypt`: the buffer `plaintext` and the length, `0` if the tag is wrong. -/
def gcm_decrypt (e : Evp) (ciphertext mac key iv : List Byte) (plaintext : Nat → Byte) : (Nat → Byte) × Int :=
  let update := e.DecryptUpdate key iv ciphertext
  let final := e.DecryptFinal key iv ciphertext mac
  (store (store plaintext 0 update) update.length final,
    if e.verified key iv ciphertext mac then update.length + final.length else 0)

/-! ## Messages -/

inductive message_type where
  | STAT
  | FLOW_SIZE
  | HEAVY_HITTER
  | HEAVY_CHANGE
  | CARDINALITY
  | DIST
  | ENTROPY
  | STOP
  deriving DecidableEq

structure Ctx where
  key : List Byte
  IV : List Byte
  IV_length : IV.length = GCM_IV_SIZE

/-- A message without its links; `payload` is the memory from the pointer on. -/
structure Message where
  type : message_type
  payload_size : Int
  mac : List Byte
  payload : Nat → Byte

def Ctx.next (ctx : Ctx) : Ctx where
  key := ctx.key
  IV := incr_ctr ctx.IV
  IV_length := by rw [length_incr_ctr, ctx.IV_length]

/-- `pack_message`. The payload is `none` for `NULL`, else the `size` bytes of the buffer; `mem` is the memory that `malloc`
returns outside the enclave. -/
def pack_message (e : Evp) (message : Message) (type : message_type) (ctx : Ctx) (payload : Option (List Byte)) (size : Int)
    (is_enclave : Bool) (mem : Nat → Byte) : Message × Ctx :=
  let message := { message with
    type := type
    payload_size := if size ≠ 0 then toInt32 (GCM_IV_SIZE + size) else 0 }
  match payload with
  | none => (message, ctx)
  | some payload =>
    let buffer := if is_enclave then message.payload else mem
    let buffer := store buffer 0 ctx.IV
    let c := gcm_encrypt e payload ctx.key ctx.IV buffer GCM_IV_SIZE
    ({ message with payload := c.1, mac := c.2.1 }, ctx.next)

/-- `unpack_message`: the buffer `res` and the length. -/
def unpack_message (e : Evp) (message : Message) (ctx : Ctx) (res : Nat → Byte) : (Nat → Byte) × Int :=
  let size := toInt32 (message.payload_size - GCM_IV_SIZE)
  gcm_decrypt e (load message.payload GCM_IV_SIZE size.toNat) message.mac ctx.key (load message.payload 0 GCM_IV_SIZE) res

/-- One call of `pack_message` in the application. -/
structure PackCall where
  message : Message
  type : message_type
  payload : List Byte
  mem : Nat → Byte

/-- The payload has between `1` and `INT_MAX - 12` bytes. -/
def PackCall.Fits (c : PackCall) : Prop := 1 ≤ c.payload.length ∧ c.payload.length ≤ 2147483635

def PackCall.run (e : Evp) (ctx : Ctx) (c : PackCall) : Message × Ctx :=
  pack_message e c.message c.type ctx (some c.payload) c.payload.length false c.mem

def packAll (e : Evp) : Ctx → List PackCall → List Message
  | _, [] => []
  | ctx, c :: calls => (c.run e ctx).1 :: packAll e (c.run e ctx).2 calls

def Message.iv (m : Message) : List Byte := load m.payload 0 GCM_IV_SIZE

/-! ## One message -/

theorem iv_run (e : Evp) (ctx : Ctx) (c : PackCall) : (c.run e ctx).1.iv = ctx.IV := by
  have hlen : GCM_IV_SIZE = ctx.IV.length := ctx.IV_length.symm
  have hpayload : (c.run e ctx).1.payload = store (store (store c.mem 0 ctx.IV) GCM_IV_SIZE
      (e.EncryptUpdate ctx.key ctx.IV c.payload)) (GCM_IV_SIZE + (e.EncryptUpdate ctx.key ctx.IV c.payload).length)
        (e.EncryptFinal ctx.key ctx.IV c.payload) := rfl
  rw [Message.iv, hpayload, load_store_before _ (by omega), load_store_before _ (by omega)]
  conv_lhs => rw [hlen]
  exact load_store c.mem 0 ctx.IV

theorem payload_size_run (e : Evp) (ctx : Ctx) {c : PackCall} (hc : c.Fits) :
    (c.run e ctx).1.payload_size = GCM_IV_SIZE + c.payload.length := by
  obtain ⟨hpos, hmax⟩ := hc
  have hif : (c.run e ctx).1.payload_size =
      if (c.payload.length : Int) ≠ 0 then toInt32 (GCM_IV_SIZE + c.payload.length) else 0 := rfl
  rw [hif, if_pos (by omega), toInt32, GCM_IV_SIZE, Int.bmod_eq_of_le (by omega) (by omega)]

theorem load_store_store (mem : Nat → Byte) (d : Nat) (l r : List Byte) :
    load (store (store mem d l) (d + l.length) r) d (l ++ r).length = l ++ r := by
  rw [List.length_append, load_add, load_store_before _ le_rfl, load_store, load_store]

/-- **A message gives its payload back.** -/
theorem unpack_packed {e : Evp} (he : e.Lawful) (ctx : Ctx) {c : PackCall} (hc : c.Fits) {ctx' : Ctx}
    (hkey : ctx'.key = ctx.key) (res : Nat → Byte) :
    (unpack_message e (c.run e ctx).1 ctx' res).2 = c.payload.length ∧
      load (unpack_message e (c.run e ctx).1 ctx' res).1 0 c.payload.length = c.payload := by
  have hsize := payload_size_run e ctx hc
  obtain ⟨hpos, hmax⟩ := hc
  have hint : (toInt32 ((c.run e ctx).1.payload_size - GCM_IV_SIZE)).toNat = c.payload.length := by
    rw [hsize, toInt32, add_sub_cancel_left, Int.bmod_eq_of_le (by omega) (by omega), Int.toNat_natCast]
  have hpayload : (c.run e ctx).1.payload = store (store (store c.mem 0 ctx.IV) GCM_IV_SIZE
      (e.EncryptUpdate ctx.key ctx.IV c.payload)) (GCM_IV_SIZE + (e.EncryptUpdate ctx.key ctx.IV c.payload).length)
        (e.EncryptFinal ctx.key ctx.IV c.payload) := rfl
  have hcipher : load (c.run e ctx).1.payload GCM_IV_SIZE c.payload.length =
      e.EncryptUpdate ctx.key ctx.IV c.payload ++ e.EncryptFinal ctx.key ctx.IV c.payload := by
    rw [hpayload, ← he.length_encrypt ctx.key ctx.IV c.payload]
    exact load_store_store _ _ _ _
  have hmac : (c.run e ctx).1.mac = e.tag ctx.key ctx.IV c.payload := rfl
  have hiv : load (c.run e ctx).1.payload 0 GCM_IV_SIZE = ctx.IV := iv_run e ctx c
  have hdec := he.decrypt_encrypt ctx.key ctx.IV c.payload
  have hver := he.verified_encrypt ctx.key ctx.IV c.payload
  unfold unpack_message gcm_decrypt
  dsimp only at hdec hver ⊢
  rw [hint, hcipher, hmac, hiv, hkey, hver, if_pos rfl]
  generalize e.DecryptUpdate ctx.key ctx.IV _ = update at hdec ⊢
  generalize e.DecryptFinal ctx.key ctx.IV _ _ = final at hdec ⊢
  rw [← hdec]
  have hwritten := load_store_store res 0 update final
  rw [Nat.zero_add] at hwritten
  exact ⟨by rw [List.length_append, Nat.cast_add], hwritten⟩

/-! ## A sequence of messages -/

theorem getElem?_packAll (e : Evp) (ctx : Ctx) (calls : List PackCall) (k : Nat) :
    (packAll e ctx calls)[k]? = (calls[k]?).map fun c => (c.run e (Ctx.next^[k] ctx)).1 := by
  induction calls generalizing ctx k with
  | nil => rfl
  | cons c calls ih =>
    cases k with
    | zero => rfl
    | succ k =>
      rw [packAll, List.getElem?_cons_succ, List.getElem?_cons_succ, ih]
      rfl

theorem ctrVal_next (ctx : Ctx) (k : Nat) : ctrVal (Ctx.next^[k] ctx).IV = (ctrVal ctx.IV + k) % 2 ^ 96 := by
  have hlen : ∀ c : Ctx, 256 ^ c.IV.length = 2 ^ 96 := fun c => by rw [c.IV_length]; rfl
  induction k with
  | zero =>
    have hlt := ctrVal_lt ctx.IV
    rw [hlen] at hlt
    exact (Nat.mod_eq_of_lt hlt).symm
  | succ k ih =>
    have hstep : (Ctx.next^[k + 1] ctx).IV = incr_ctr (Ctx.next^[k] ctx).IV := by
      rw [Function.iterate_succ_apply']
      rfl
    rw [hstep, ctrVal_incr_ctr, hlen, ih, Nat.mod_add_mod, Nat.add_assoc]

theorem key_next (ctx : Ctx) (k : Nat) : (Ctx.next^[k] ctx).key = ctx.key := by
  induction k with
  | zero => rfl
  | succ k ih =>
    rw [Function.iterate_succ_apply']
    exact ih

@[simp] theorem length_packAll (e : Evp) (ctx : Ctx) (calls : List PackCall) :
    (packAll e ctx calls).length = calls.length := by
  induction calls generalizing ctx with
  | nil => rfl
  | cons c calls ih => rw [packAll, List.length_cons, ih, List.length_cons]

/-- **No IV is used twice** before the counter comes round. -/
theorem packAll_nodup (e : Evp) (ctx : Ctx) {calls : List PackCall} (h : calls.length ≤ 2 ^ 96) :
    ((packAll e ctx calls).map Message.iv).Nodup := by
  rw [List.nodup_iff_getElem?_ne_getElem?]
  intro i j hij hj he
  rw [List.length_map, length_packAll] at hj
  have hi : i < calls.length := hij.trans hj
  have hiv : ∀ k < calls.length, ((packAll e ctx calls).map Message.iv)[k]? = some (Ctx.next^[k] ctx).IV := by
    intro k hk
    rw [List.getElem?_map, getElem?_packAll, List.getElem?_eq_getElem hk, Option.map_some, Option.map_some, iv_run]
  rw [hiv i hi, hiv j hj, Option.some.injEq] at he
  have hval := congrArg ctrVal he
  rw [ctrVal_next, ctrVal_next] at hval
  omega

/-- **Packing and unpacking**: the IVs are distinct and every message gives back its payload, whenever it is unpacked. -/
theorem packAll_unpack {e : Evp} (he : e.Lawful) (ctx : Ctx) {calls : List PackCall} (hnum : calls.length ≤ 2 ^ 96)
    (hfits : ∀ c ∈ calls, c.Fits) :
    ((packAll e ctx calls).map Message.iv).Nodup ∧ (packAll e ctx calls).length = calls.length ∧
      ∀ (k : Nat) (m : Message) (c : PackCall), (packAll e ctx calls)[k]? = some m → calls[k]? = some c → ∀ ctx' : Ctx, ctx'.key = ctx.key →
        ∀ res, (unpack_message e m ctx' res).2 = c.payload.length ∧
          load (unpack_message e m ctx' res).1 0 c.payload.length = c.payload := by
  refine ⟨packAll_nodup e ctx hnum, length_packAll e ctx calls, ?_⟩
  intro k m c hm hc ctx' hkey res
  rw [getElem?_packAll, hc, Option.map_some, Option.some.injEq] at hm
  subst hm
  exact unpack_packed he _ (hfits c (List.mem_of_getElem? hc)) (hkey.trans (key_next ctx k).symm) res

/-! ## Two messages under the zero key -/

def zeroKey : List Byte := List.replicate 16 0

def zeroCtx : Ctx where
  key := zeroKey
  IV := List.replicate 12 0
  IV_length := rfl

def zeroCall (size : Nat) : PackCall where
  message := ⟨.STAT, 0, [], fun _ => 0⟩
  type := .STAT
  payload := List.replicate size 0
  mem := fun _ => 0

theorem packAll_unpack_two :
    let ms := packAll aesGcm zeroCtx [zeroCall 1, zeroCall 2]
    (ms.map Message.iv).Nodup ∧ ms.length = 2 ∧
      ∀ (k : Nat) (m : Message) (c : PackCall), ms[k]? = some m → [zeroCall 1, zeroCall 2][k]? = some c →
        ∀ ctx' : Ctx, ctx'.key = zeroKey → ∀ res,
          (unpack_message aesGcm m ctx' res).2 = c.payload.length ∧
            load (unpack_message aesGcm m ctx' res).1 0 c.payload.length = c.payload := by
  refine packAll_unpack aesGcm_lawful zeroCtx (by decide) ?_
  intro c hc
  rcases List.mem_cons.mp hc with rfl | hc
  · exact ⟨by decide, by decide⟩
  · rw [List.mem_singleton.mp hc]
    exact ⟨by decide, by decide⟩

end FOSketch.Secure
