import Mathlib.Data.List.Lex
import Mathlib.Data.Nat.Defs
import Mathlib.Tactic.Ring

/-! Little-endian fixed-width fields: the only encoding the data file, the sparse index
and the value log are made of. -/
namespace Velarix

/-- File contents and keys, `Vec<u8>`. -/
abbrev Bytes := List UInt8

/-- `to_le_bytes` of a `w`-byte unsigned integer: the low `w` bytes of `n`. -/
def leBytes : Nat → Nat → Bytes
  | 0, _ => []
  | w + 1, n => UInt8.ofNat (n % 256) :: leBytes w (n / 256)

/-- `from_le_bytes`. -/
def ofLe : Bytes → Nat
  | [] => 0
  | b :: bs => b.toNat + 256 * ofLe bs

@[simp] theorem length_leBytes (w n : Nat) : (leBytes w n).length = w := by
  induction w generalizing n with
  | zero => rfl
  | succ w ih => simp [leBytes, ih]

theorem ofLe_leBytes (w n : Nat) : ofLe (leBytes w n) = n % 256 ^ w := by
  induction w generalizing n with
  | zero => simp [leBytes, ofLe, Nat.mod_one]
  | succ w ih =>
    rw [leBytes, ofLe, ih, UInt8.toNat_ofNat_of_lt (Nat.mod_lt _ (by decide)), Nat.pow_succ',
      Nat.mod_mul]

/-- The zero-initialised buffer `[0; n]` after a read filled its first bytes with `got`. -/
def pad (n : Nat) (got : Bytes) : Bytes := got ++ List.replicate (n - got.length) 0

@[simp] theorem pad_of_length {n : Nat} {got : Bytes} (h : got.length = n) : pad n got = got := by
  simp [pad, h]

/-- `read(&mut [0; n])` when `rest` is unread: the bytes read, at most `n`, and what stays. -/
def fileRead (n : Nat) (rest : Bytes) : Bytes × Bytes := (rest.take n, rest.drop n)

theorem fileRead_append {n : Nat} {a : Bytes} (b : Bytes) (h : a.length = n) :
    fileRead n (a ++ b) = (a, b) := by
  simp [fileRead, List.take_left' h, List.drop_left' h]

/-- `i64::to_le_bytes`: two's complement in eight bytes. -/
def i64Bytes (t : Int) : Bytes := leBytes 8 (t % 2 ^ 64).toNat

/-- `i64::from_le_bytes`. -/
def ofI64 (b : Bytes) : Int := if ofLe b < 2 ^ 63 then ofLe b else ofLe b - 2 ^ 64

theorem ofI64_i64Bytes {t : Int} (lo : -2 ^ 63 ≤ t) (hi : t < 2 ^ 63) : ofI64 (i64Bytes t) = t := by
  have h : ofLe (i64Bytes t) = (t % 2 ^ 64).toNat := by
    rw [i64Bytes, ofLe_leBytes, Nat.mod_eq_of_lt]
    omega
  unfold ofI64
  rw [h]
  split <;> omega

end Velarix
