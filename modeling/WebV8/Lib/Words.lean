import Mathlib

/-!
# Machine words and their bytes

Words are natural numbers below a power of two. A word is stored with its lowest byte first, and a
run of equal-sized words is stored end to end. Addresses are rounded with masks, offsets with a
division: `roundUp_mask` is the link between the two.
-/

namespace WebV8.Lib

/-! ## Masks -/

theorem and_highBits {w x k : Nat} (hx : x < 2 ^ w) (hk : k ≤ w) :
    x &&& (2 ^ w - 1 - (2 ^ k - 1)) = x / 2 ^ k * 2 ^ k := by
  have hmask : 2 ^ w - 1 - (2 ^ k - 1) = 2 ^ w - ((2 ^ k - 1) + 1) := by omega
  rw [hmask]
  apply Nat.eq_of_testBit_eq
  intro i
  have hle : 2 ^ k ≤ 2 ^ w := Nat.pow_le_pow_right (by decide) hk
  rw [Nat.testBit_and, Nat.testBit_two_pow_sub_succ (by omega), Nat.testBit_two_pow_sub_one,
    Nat.testBit_mul_two_pow, Nat.testBit_div_two_pow]
  by_cases hi : i < k
  · simp [hi, not_le.mpr hi]
  · rw [not_lt] at hi
    have hbit : w ≤ i → x.testBit i = false := fun h =>
      Nat.testBit_lt_two_pow (lt_of_lt_of_le hx (Nat.pow_le_pow_right (by decide) h))
    by_cases hw : i < w
    · simp [hi, hw, not_lt.mpr hi]
    · simp [hi, hbit (not_lt.mp hw)]

/-- The next multiple of `a`. -/
def roundUp (n a : Nat) : Nat := (n + a - 1) / a * a

theorem le_roundUp {a : Nat} (ha : 0 < a) (n : Nat) : n ≤ roundUp n a := by
  have h := Nat.div_add_mod (n + a - 1) a
  have hlt := Nat.mod_lt (n + a - 1) ha
  rw [roundUp, Nat.mul_comm]
  omega

theorem roundUp_lt {a : Nat} (ha : 0 < a) (n : Nat) : roundUp n a < n + a := by
  have h := Nat.div_mul_le_self (n + a - 1) a
  rw [roundUp]
  omega

theorem roundUp_add {a b : Nat} (ha : 0 < a) (hb : a ∣ b) (n : Nat) : roundUp (b + n) a = b + roundUp n a := by
  obtain ⟨c, rfl⟩ := hb
  have hsum : a * c + n + a - 1 = n + a - 1 + a * c := by omega
  rw [roundUp, roundUp, hsum, Nat.add_mul_div_left _ _ ha, Nat.add_mul, Nat.mul_comm c a, Nat.add_comm]

theorem roundUp_mask {w x k : Nat} (hx : x + 2 ^ k ≤ 2 ^ w) (hk : k ≤ w) :
    (x + (2 ^ k - 1)) % 2 ^ w &&& (2 ^ w - 1 - (2 ^ k - 1)) = roundUp x (2 ^ k) := by
  have hpow : 0 < 2 ^ k := Nat.two_pow_pos k
  have hlt : x + (2 ^ k - 1) < 2 ^ w := by omega
  rw [Nat.mod_eq_of_lt hlt, and_highBits hlt hk, roundUp, Nat.add_sub_assoc hpow]

/-! ## Bytes -/

/-- The `n` lowest bytes of `x`, the lowest first. -/
def leBytes : Nat → Nat → List UInt8
  | 0, _ => []
  | n + 1, x => UInt8.ofNat x :: leBytes n (x / 256)

def ofLeBytes : List UInt8 → Nat
  | [] => 0
  | b :: bs => b.toNat + 256 * ofLeBytes bs

@[simp] theorem length_leBytes (n x : Nat) : (leBytes n x).length = n := by
  induction n generalizing x with
  | zero => rfl
  | succ n ih => simp [leBytes, ih]

theorem ofLeBytes_leBytes (n x : Nat) : ofLeBytes (leBytes n x) = x % 256 ^ n := by
  induction n generalizing x with
  | zero => simp [leBytes, ofLeBytes, Nat.mod_one]
  | succ n ih =>
    have hbyte : (UInt8.ofNat x).toNat = x % 256 := UInt8.toNat_ofNat'
    rw [leBytes, ofLeBytes, ih, hbyte, Nat.pow_succ, Nat.mul_comm (256 ^ n), Nat.mod_mul]

/-! ## Records of equal size -/

variable {α β : Type*} {f : α → List β} {size : Nat}

/-- The first `n` records of `size` items each. -/
def records (size : Nat) : Nat → List β → List (List β)
  | 0, _ => []
  | n + 1, bs => bs.take size :: records size n (bs.drop size)

theorem length_flatMap_const (h : ∀ a, (f a).length = size) (l : List α) :
    (l.flatMap f).length = l.length * size := by
  induction l with
  | nil => simp
  | cons a l ih => rw [List.flatMap_cons, List.length_append, h, ih, List.length_cons]; ring

theorem records_flatMap_append (h : ∀ a, (f a).length = size) (l : List α)
    (rest : List β) : records size l.length (l.flatMap f ++ rest) = l.map f := by
  induction l with
  | nil => rfl
  | cons a l ih =>
    rw [List.flatMap_cons, List.length_cons, records, List.append_assoc, List.take_left' (h a),
      List.drop_left' (h a), ih, List.map_cons]

theorem records_flatMap (h : ∀ a, (f a).length = size) (l : List α) :
    records size l.length (l.flatMap f) = l.map f := by
  have hrec := records_flatMap_append h l []
  rwa [List.append_nil] at hrec

end WebV8.Lib
