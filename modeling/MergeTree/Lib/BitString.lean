import Mathlib

/-!
# Bit strings

A `BitString` is a number of bits, the first bit least significant. `push` appends the low
bits of a value, `tail p` are the bits from `p` on and `field p b` are `b` bits from `p` on.

* `field_push_size`, `field_push_of_le`: a field is what was pushed, and stays it.
* `tail_push`: what a push does to the bits that a word or an accumulator holds.
* `pack b vs`: the values `vs`, each in `b` bits (`field_pack`).
* `or_shiftLeft`, `field_of_words`: an accumulator takes a field by a shift and an or, and a
  field that lies in two words is put together from both.
-/

/-- **A bit string**: so many bits of a number. -/
structure BitString where
  size : ℕ
  value : ℕ
  lt : value < 2 ^ size

namespace BitString

variable {s : BitString}

/-- The bit string without bits. -/
def empty : BitString := ⟨0, 0, by norm_num⟩

/-- Appends the low `b` bits of `v`. -/
def push (s : BitString) (b v : ℕ) : BitString where
  size := s.size + b
  value := s.value + 2 ^ s.size * (v % 2 ^ b)
  lt := by
    have hs := s.lt
    have hv : v % 2 ^ b + 1 ≤ 2 ^ b := Nat.mod_lt _ (by positivity)
    have hmul := Nat.mul_le_mul_left (2 ^ s.size) hv
    rw [Nat.mul_add, Nat.mul_one, ← Nat.pow_add] at hmul
    omega

@[simp] theorem size_empty : empty.size = 0 := rfl

@[simp] theorem size_push (b v : ℕ) : (s.push b v).size = s.size + b := rfl

/-- The bits from `p` on. -/
def tail (s : BitString) (p : ℕ) : ℕ := s.value / 2 ^ p

/-- The `b` bits from `p` on. -/
def field (s : BitString) (p b : ℕ) : ℕ := s.tail p % 2 ^ b

theorem field_lt (s : BitString) (p b : ℕ) : s.field p b < 2 ^ b := Nat.mod_lt _ (by positivity)

theorem tail_tail (s : BitString) (p q : ℕ) : s.tail p / 2 ^ q = s.tail (p + q) := by
  unfold tail
  rw [Nat.div_div_eq_div_mul, ← Nat.pow_add]

theorem tail_lt {p q : ℕ} (h : s.size ≤ p + q) : s.tail p < 2 ^ q := by
  unfold tail
  apply Nat.div_lt_of_lt_mul
  rw [← Nat.pow_add]
  exact s.lt.trans_le (Nat.pow_le_pow_right (by norm_num) h)

@[simp] theorem tail_empty (p : ℕ) : empty.tail p = 0 := Nat.zero_div _

theorem tail_push {p : ℕ} (h : p ≤ s.size) (b v : ℕ) :
    (s.push b v).tail p = s.tail p + 2 ^ (s.size - p) * (v % 2 ^ b) := by
  have hsplit : 2 ^ s.size * (v % 2 ^ b) = 2 ^ p * (2 ^ (s.size - p) * (v % 2 ^ b)) := by
    rw [← Nat.mul_assoc, ← Nat.pow_add]
    congr 2
    omega
  show (s.value + 2 ^ s.size * (v % 2 ^ b)) / 2 ^ p = s.value / 2 ^ p + 2 ^ (s.size - p) * (v % 2 ^ b)
  rw [hsplit, Nat.add_mul_div_left _ _ (by positivity)]

theorem tail_push_add (b v q : ℕ) : (s.push b v).tail (s.size + q) = v % 2 ^ b / 2 ^ q := by
  have hzero : s.tail s.size = 0 := Nat.div_eq_of_lt s.lt
  rw [← tail_tail, tail_push le_rfl, hzero, Nat.sub_self, Nat.pow_zero, Nat.one_mul, Nat.zero_add]

/-- **The pushed field.** -/
theorem field_push_size (b v : ℕ) : (s.push b v).field s.size b = v % 2 ^ b := by
  have htail := tail_push_add (s := s) b v 0
  rw [Nat.add_zero, Nat.pow_zero, Nat.div_one] at htail
  rw [field, htail, Nat.mod_mod]

/-- **A push keeps the fields.** -/
theorem field_push_of_le {p c : ℕ} (h : p + c ≤ s.size) (b v : ℕ) : (s.push b v).field p c = s.field p c := by
  have hsplit : 2 ^ (s.size - p) * (v % 2 ^ b) = 2 ^ c * (2 ^ (s.size - p - c) * (v % 2 ^ b)) := by
    rw [← Nat.mul_assoc, ← Nat.pow_add]
    congr 2
    omega
  unfold field
  rw [tail_push (by omega), hsplit, Nat.add_mul_mod_self_left]

theorem field_eq_tail {p c : ℕ} (h : s.size ≤ p + c) : s.field p c = s.tail p :=
  Nat.mod_eq_of_lt (tail_lt h)

theorem tail_eq (s : BitString) (p c : ℕ) : s.tail p = s.field p c + 2 ^ c * s.tail (p + c) := by
  unfold field
  rw [← tail_tail, Nat.mod_add_div]

theorem field_mod {p b c : ℕ} (h : b ≤ c) : s.field p c % 2 ^ b = s.field p b := by
  unfold field
  exact Nat.mod_mod_of_dvd _ (Nat.pow_dvd_pow 2 h)

theorem field_add (s : BitString) (p b c : ℕ) : s.field p (b + c) = s.field p b + 2 ^ b * s.field (p + b) c := by
  unfold field
  rw [← tail_tail, Nat.pow_add, Nat.mod_mul]

theorem field_div (s : BitString) (p b c : ℕ) : s.field p (b + c) / 2 ^ b = s.field (p + b) c := by
  rw [field_add, Nat.add_mul_div_left _ _ (by positivity), Nat.div_eq_of_lt (s.field_lt p b), Nat.zero_add]

theorem field_of_word (s : BitString) {p o b w : ℕ} (h : o + b ≤ w) :
    (s.field p w >>> o) % 2 ^ b = s.field (p + o) b := by
  have hw : w = o + (w - o) := by omega
  rw [Nat.shiftRight_eq_div_pow, hw, field_div, field_mod (by omega)]

/-! ## Accumulators -/

theorem or_shiftLeft {acc a : ℕ} (h : acc < 2 ^ a) (v : ℕ) : acc ||| v <<< a = acc + 2 ^ a * v := by
  rw [Nat.shiftLeft_eq, Nat.or_comm, Nat.mul_comm, ← Nat.two_pow_add_eq_or_of_lt h, Nat.add_comm]

theorem or_shiftLeft_mod {acc a w : ℕ} (h : acc < 2 ^ a) (haw : a ≤ w) (v : ℕ) :
    acc ||| (v <<< a) % 2 ^ w = (acc + 2 ^ a * v) % 2 ^ w := by
  have hcut : (v <<< a) % 2 ^ w = (v % 2 ^ (w - a)) <<< a := by
    rw [Nat.shiftLeft_eq, Nat.shiftLeft_eq, ← Nat.mul_mod_mul_right, ← Nat.pow_add]
    congr 2
    omega
  have hsum : acc + 2 ^ a * (v % 2 ^ (w - a)) < 2 ^ w := by
    have hv : v % 2 ^ (w - a) + 1 ≤ 2 ^ (w - a) := Nat.mod_lt _ (by positivity)
    have hmul := Nat.mul_le_mul_left (2 ^ a) hv
    rw [Nat.mul_add, Nat.mul_one, ← Nat.pow_add, Nat.add_sub_cancel' haw] at hmul
    omega
  have hsplit : acc + 2 ^ a * v = acc + 2 ^ a * (v % 2 ^ (w - a)) + 2 ^ w * (v / 2 ^ (w - a)) := by
    conv_lhs => rw [← Nat.mod_add_div v (2 ^ (w - a))]
    rw [Nat.mul_add, ← Nat.mul_assoc, ← Nat.pow_add, Nat.add_sub_cancel' haw, Nat.add_assoc]
  rw [hcut, or_shiftLeft h, hsplit, Nat.add_mul_mod_self_left, Nat.mod_eq_of_lt hsum]

theorem field_of_words (s : BitString) {p o b w : ℕ} (ho : o ≤ w) (hb : b ≤ w) :
    (s.field p w >>> o ||| (s.field (p + w) w <<< (w - o)) % 2 ^ w) % 2 ^ b = s.field (p + o) b := by
  have hw : w = o + (w - o) := by omega
  have hlow : s.field p w >>> o = s.field (p + o) (w - o) := by
    rw [Nat.shiftRight_eq_div_pow]
    conv_lhs => rw [hw]
    rw [field_div]
  have hnext : s.field (p + o) (w - o) + 2 ^ (w - o) * s.field (p + w) w = s.field (p + o) (w - o + w) := by
    rw [field_add]
    congr 3
    omega
  rw [hlow, or_shiftLeft_mod (s.field_lt _ _) (by omega), hnext, Nat.mod_mod_of_dvd _ (Nat.pow_dvd_pow 2 hb),
    field_mod (by omega)]

/-! ## Fields of one width -/

/-- The values `vs`, each in `b` bits. -/
def pack (b : ℕ) (vs : List ℕ) : BitString := vs.foldl (fun s v => s.push b v) empty

theorem pack_append (b : ℕ) (vs : List ℕ) (v : ℕ) : pack b (vs ++ [v]) = (pack b vs).push b v := by
  simp [pack]

@[simp] theorem pack_nil (b : ℕ) : pack b [] = empty := rfl

@[simp] theorem size_pack (b : ℕ) (vs : List ℕ) : (pack b vs).size = b * vs.length := by
  induction vs using List.reverseRecOn with
  | nil => simp
  | append_singleton vs v ih => rw [pack_append, size_push, ih, List.length_append, List.length_singleton, Nat.mul_succ]

/-- **What was packed.** -/
theorem field_pack {b : ℕ} {vs : List ℕ} {i : ℕ} (h : i < vs.length) : (pack b vs).field (b * i) b = vs[i] % 2 ^ b := by
  induction vs using List.reverseRecOn with
  | nil => simp at h
  | append_singleton vs v ih =>
    rw [pack_append]
    by_cases hi : i < vs.length
    · have hle : b * i + b ≤ b * vs.length := by
        rw [← Nat.mul_succ]
        exact Nat.mul_le_mul_left _ hi
      rw [field_push_of_le (by rw [size_pack]; exact hle), ih hi, List.getElem_append_left hi]
    · have hi' : i = vs.length := by
        rw [List.length_append, List.length_singleton] at h
        omega
      subst hi'
      rw [← size_pack, field_push_size, List.getElem_concat_length rfl]

end BitString
