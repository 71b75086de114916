import Mathlib

/-!
# Writing values and reading them back

A reader takes a value off the front of a buffer, or throws. `Reads r bytes a` says that
`r` consumes exactly `bytes` and yields `a`, whatever follows. It composes along the
reader: bind, optional fields, sequences. A codec is a writer with a reader that undoes it.

At the end are the codecs of fixed-width and variable-width numbers and of strings.
-/

namespace MergeTree

variable {α β γ : Type}

/-- **A reader** of a buffer of bytes. -/
abbrev Reader (α : Type) : Type := StateT (List UInt8) (Except String) α

/-- The reader consumes exactly `bytes` and yields `a`. -/
def Reads (r : Reader α) (bytes : List UInt8) (a : α) : Prop :=
  ∀ rest, r.run (bytes ++ rest) = .ok (a, rest)

/-- The reader throws when the buffer starts with `bytes`. -/
def Throws (r : Reader α) (bytes : List UInt8) (e : String) : Prop :=
  ∀ rest, r.run (bytes ++ rest) = .error e

/-! ## Rules for readers -/

variable {r : Reader α} {f : α → Reader β} {e : String}

theorem Reads.unique {bytes : List UInt8} {a b : α} (ha : Reads r bytes a) (hb : Reads r bytes b) :
    a = b := by
  have h := (ha []).symm.trans (hb [])
  cases h
  rfl

theorem Throws.not_reads {bytes : List UInt8} (h : Throws r bytes e) (a : α) :
    ¬ Reads r bytes a := by
  intro ha
  have := (h []).symm.trans (ha [])
  cases this

theorem Reads.pure (a : α) : Reads (pure a) [] a := fun _ => rfl

theorem Reads.bind {bytes bytes' : List UInt8} {a : α} {b : β}
    (hr : Reads r bytes a) (hf : Reads (f a) bytes' b) : Reads (r >>= f) (bytes ++ bytes') b := by
  intro rest
  rw [StateT.run_bind, List.append_assoc, hr (bytes' ++ rest)]
  exact hf rest

theorem Reads.bind_nil {bytes : List UInt8} {a : α} {b : β}
    (hr : Reads r bytes a) (hf : Reads (f a) [] b) : Reads (r >>= f) bytes b := by
  have h := hr.bind hf
  rw [List.append_nil] at h
  exact h

theorem Reads.bind_pure {f : α → β} {bytes : List UInt8} {a : α} (hr : Reads r bytes a) :
    Reads (r >>= fun a => Pure.pure (f a)) bytes (f a) :=
  hr.bind_nil (Reads.pure (f a))

theorem Reads.nil_bind {bytes : List UInt8} {a : α} {b : β}
    (hr : Reads r [] a) (hf : Reads (f a) bytes b) : Reads (r >>= f) bytes b := by
  have h := hr.bind hf
  rw [List.nil_append] at h
  exact h

theorem Throws.bind {bytes : List UInt8} (hr : Throws r bytes e) :
    Throws (r >>= f) bytes e := by
  intro rest
  rw [StateT.run_bind, hr rest]
  rfl

theorem Throws.bind_right {bytes bytes' : List UInt8} {a : α}
    (hr : Reads r bytes a) (hf : Throws (f a) bytes' e) : Throws (r >>= f) (bytes ++ bytes') e := by
  intro rest
  rw [StateT.run_bind, List.append_assoc, hr (bytes' ++ rest)]
  exact hf rest

theorem Throws.throw (bytes : List UInt8) (e : String) : Throws (throw e : Reader α) bytes e := fun _ => rfl

theorem Throws.append {bytes : List UInt8} (h : Throws r bytes e) (bytes' : List UInt8) :
    Throws r (bytes ++ bytes') e := by
  intro rest
  rw [List.append_assoc]
  exact h (bytes' ++ rest)

/-- A check that throws unless it holds. -/
def Reader.check (ok : Prop) [Decidable ok] (e : String) : Reader Unit := if ok then Pure.pure () else throw e

theorem Reads.check {ok : Prop} [Decidable ok] (h : ok) : Reads (Reader.check ok e) [] () := by
  unfold Reader.check
  rw [if_pos h]
  exact Reads.pure ()

theorem Throws.check {ok : Prop} [Decidable ok] (h : ¬ ok) : Throws (Reader.check ok e) [] e := by
  unfold Reader.check
  rw [if_neg h]
  exact Throws.throw [] e

/-- A field that is on the wire only when `present`; else it keeps the value `a`. -/
def Reader.optional (present : Prop) [Decidable present] (r : Reader α) (a : α) : Reader α :=
  if present then r else Pure.pure a

theorem Reads.optional {present : Prop} [Decidable present] {bytes : List UInt8} {a b : α}
    (hr : Reads r bytes b) (ha : ¬ present → b = a) :
    Reads (Reader.optional present r a) (if present then bytes else []) b := by
  unfold Reader.optional
  by_cases h : present
  · rw [if_pos h, if_pos h]
    exact hr
  · rw [if_neg h, if_neg h, ha h]
    exact Reads.pure a

/-- Reads into each element of a list, in its order. -/
def Reader.each (f : α → Reader β) : List α → Reader (List β)
  | [] => Pure.pure []
  | a :: as => do
    let b ← f a
    let bs ← Reader.each f as
    return b :: bs

/-- **Reading a sequence**, one value into each place. -/
theorem Reads.each {write : γ → List UInt8} {g : γ → β} : ∀ {places : List α} {values : List γ},
    places.length = values.length → (∀ a ∈ places, ∀ c ∈ values, Reads (f a) (write c) (g c)) →
    Reads (Reader.each f places) (values.flatMap write) (values.map g) := by
  intro places
  induction places with
  | nil =>
    intro values hlen _
    have hnil : values = [] := List.length_eq_zero_iff.1 hlen.symm
    subst hnil
    exact Reads.pure []
  | cons a places ih =>
    intro values hlen h
    cases values with
    | nil => simp at hlen
    | cons c values =>
      have hrest := ih (by simpa using hlen) fun a ha c hc =>
        h a (List.mem_cons_of_mem _ ha) c (List.mem_cons_of_mem _ hc)
      have hhead := h a List.mem_cons_self c List.mem_cons_self
      rw [List.flatMap_cons, List.map_cons]
      exact hhead.bind hrest.bind_pure

/-- **A loop over an index**: each time around takes the state one step further. -/
theorem Reads.foldlM_range {f : β → ℕ → Reader β} {s : ℕ → β} {w : ℕ → List UInt8} : ∀ {n : ℕ},
    (∀ i < n, Reads (f (s i) i) (w i) (s (i + 1))) →
    Reads ((List.range n).foldlM f (s 0)) ((List.range n).flatMap w) (s n) := by
  intro n
  induction n with
  | zero => intro _; exact Reads.pure (s 0)
  | succ n ih =>
    intro h
    have hbefore := ih fun i hi => h i (by omega)
    have hlast := h n (by omega)
    rw [List.range_succ, List.foldlM_append, List.flatMap_append]
    simp only [List.foldlM_cons, List.foldlM_nil, List.flatMap_cons, List.flatMap_nil, List.append_nil]
    exact hbefore.bind (hlast.bind_pure (f := id))

/-! ## Codecs -/

/-- **A codec** for the values in its domain. -/
structure Codec (α : Type) (dom : α → Prop) where
  write : α → List UInt8
  read : Reader α
  reads : ∀ a, dom a → Reads read (write a) a

/-- A codec for fewer values. -/
def Codec.restrict {dom dom' : α → Prop} (c : Codec α dom) (h : ∀ a, dom' a → dom a) : Codec α dom' where
  write := c.write
  read := c.read
  reads := fun a ha => c.reads a (h a ha)

/-- Takes one byte. -/
def Reader.byte : Reader UInt8 := fun buffer =>
  match buffer with
  | [] => .error "Attempt to read after eof"
  | b :: rest => .ok (b, rest)

theorem Reads.byte (b : UInt8) : Reads Reader.byte [b] b := fun _ => rfl

/-- A byte. -/
def Codec.byte : Codec ℕ (· < 2 ^ 8) where
  write n := [UInt8.ofNat n]
  read := do
    let b ← Reader.byte
    return b.toNat
  reads := by
    intro n hn
    have h := (Reads.byte (UInt8.ofNat n)).bind_pure (f := UInt8.toNat)
    rw [UInt8.toNat_ofNat_of_lt' hn] at h
    exact h

/-- The bytes of a number of `width` bytes, the lowest first. -/
def writeLittleEndian : ℕ → ℕ → List UInt8
  | 0, _ => []
  | width + 1, n => UInt8.ofNat (n % 256) :: writeLittleEndian width (n / 256)

/-- Reads a number of `width` bytes. -/
def readLittleEndian : ℕ → Reader ℕ
  | 0 => Pure.pure 0
  | width + 1 => do
    let b ← Reader.byte
    let n ← readLittleEndian width
    return b.toNat + 256 * n

theorem Reads.littleEndian : ∀ {width n : ℕ}, n < 256 ^ width →
    Reads (readLittleEndian width) (writeLittleEndian width n) n := by
  intro width
  induction width with
  | zero =>
    intro n hn
    obtain rfl : n = 0 := by simpa using hn
    exact Reads.pure 0
  | succ width ih =>
    intro n hn
    have hdiv : n / 256 < 256 ^ width := by
      rw [pow_succ] at hn
      omega
    have hmod : n % 256 < 2 ^ 8 := Nat.mod_lt n (by decide)
    have hvalue : (UInt8.ofNat (n % 256)).toNat + 256 * (n / 256) = n := by
      rw [UInt8.toNat_ofNat_of_lt' hmod, Nat.mod_add_div]
    have hrest := (ih hdiv).bind_pure (f := fun m => (UInt8.ofNat (n % 256)).toNat + 256 * m)
    rw [hvalue] at hrest
    exact (Reads.byte _).bind hrest

/-- Numbers of a fixed width. -/
def Codec.littleEndian (width : ℕ) : Codec ℕ (· < 256 ^ width) where
  write := writeLittleEndian width
  read := readLittleEndian width
  reads := fun _ hn => Reads.littleEndian hn

/-- Signed numbers of a fixed width, in two's complement. -/
def Codec.signedLittleEndian (width : ℕ) : Codec ℤ (fun n => -(256 ^ width : ℤ) ≤ 2 * n ∧ 2 * n < 256 ^ width) where
  write n := writeLittleEndian width (n % 256 ^ width).toNat
  read := do
    let n ← readLittleEndian width
    return if 2 * n < 256 ^ width then (n : ℤ) else (n : ℤ) - 256 ^ width
  reads := by
    rintro n ⟨hlo, hhi⟩
    have hpos : (0 : ℤ) < 256 ^ width := by positivity
    have hnonneg := Int.emod_nonneg n hpos.ne'
    have hlt := Int.emod_lt_of_pos n hpos
    have hcast : ((n % 256 ^ width).toNat : ℤ) = n % 256 ^ width := Int.toNat_of_nonneg hnonneg
    have hnat : (n % 256 ^ width).toNat < 256 ^ width := by
      zify
      rw [hcast]
      exact hlt
    have h := (Reads.littleEndian hnat).bind_pure
      (f := fun n : ℕ => if 2 * n < 256 ^ width then (n : ℤ) else (n : ℤ) - 256 ^ width)
    have hvalue : (if 2 * (n % 256 ^ width).toNat < 256 ^ width then ((n % 256 ^ width).toNat : ℤ)
        else ((n % 256 ^ width).toNat : ℤ) - 256 ^ width) = n := by
      have hiff : 2 * (n % 256 ^ width).toNat < 256 ^ width ↔ 2 * (n % 256 ^ width) < 256 ^ width := by
        zify
        rw [hcast]
      simp only [hiff, hcast]
      by_cases hn : 0 ≤ n
      · rw [Int.emod_eq_of_lt hn (by omega), if_pos hhi]
      · have hmod : n % 256 ^ width = n + 256 ^ width := by
          rw [← Int.add_emod_right, Int.emod_eq_of_lt (by omega) (by omega)]
        rw [hmod, if_neg (by omega)]
        ring
    rw [hvalue] at h
    exact h

/-- A number in groups of seven bits, the lowest first; the high bit of a byte says that
more follow. -/
def writeVarUInt (n : ℕ) : List UInt8 :=
  if n < 128 then [UInt8.ofNat n] else UInt8.ofNat (n % 128 + 128) :: writeVarUInt (n / 128)

/-- Reads at most `fuel` groups. -/
def readVarUInt : ℕ → Reader ℕ
  | 0 => throw "Attempt to read too many bytes of a number"
  | fuel + 1 => do
    let b ← Reader.byte
    if b.toNat < 128 then return b.toNat
    else
      let n ← readVarUInt fuel
      return b.toNat - 128 + 128 * n

theorem Reads.varUInt : ∀ {fuel n : ℕ}, 0 < fuel → n < 128 ^ fuel → Reads (readVarUInt fuel) (writeVarUInt n) n := by
  intro fuel
  induction fuel with
  | zero =>
    intro n hfuel
    omega
  | succ fuel ih =>
    intro n _ hn
    rw [writeVarUInt]
    by_cases hsmall : n < 128
    · have hbyte : (UInt8.ofNat n).toNat = n := UInt8.toNat_ofNat_of_lt' (by change n < 256; omega)
      have hlast : Reads (if (UInt8.ofNat n).toNat < 128 then Pure.pure (UInt8.ofNat n).toNat
          else do
            let m ← readVarUInt fuel
            return (UInt8.ofNat n).toNat - 128 + 128 * m) [] n := by
        rw [hbyte, if_pos hsmall]
        exact Reads.pure n
      rw [if_pos hsmall]
      exact (Reads.byte _).bind hlast
    · have hbyte : (UInt8.ofNat (n % 128 + 128)).toNat = n % 128 + 128 :=
        UInt8.toNat_ofNat_of_lt' (by change n % 128 + 128 < 256; omega)
      have hdiv : n / 128 < 128 ^ fuel := by
        rw [pow_succ] at hn
        omega
      have hfuel : 0 < fuel := by
        by_contra h
        obtain rfl : fuel = 0 := by omega
        simp only [pow_zero] at hdiv
        omega
      have hvalue : n % 128 + 128 - 128 + 128 * (n / 128) = n := by omega
      have hmore := (ih hfuel hdiv).bind_pure (f := fun m => n % 128 + 128 - 128 + 128 * m)
      rw [hvalue] at hmore
      have hnext : Reads (if (UInt8.ofNat (n % 128 + 128)).toNat < 128
          then Pure.pure (UInt8.ofNat (n % 128 + 128)).toNat
          else do
            let m ← readVarUInt fuel
            return (UInt8.ofNat (n % 128 + 128)).toNat - 128 + 128 * m) (writeVarUInt (n / 128)) n := by
        rw [hbyte, if_neg (by omega)]
        exact hmore
      rw [if_neg hsmall]
      exact (Reads.byte _).bind hnext

/-- Numbers of variable width, of at most ten bytes. -/
def Codec.varUInt : Codec ℕ (· < 2 ^ 64) where
  write := writeVarUInt
  read := readVarUInt 10
  reads := by
    intro n hn
    exact Reads.varUInt (by decide) (lt_trans hn (by decide))

/-- Takes `n` bytes. -/
def Reader.bytes (n : ℕ) : Reader (List UInt8) := fun buffer =>
  if buffer.length < n then .error "Attempt to read after eof" else .ok (buffer.take n, buffer.drop n)

theorem Reads.bytes (l : List UInt8) : Reads (Reader.bytes l.length) l l := by
  intro rest
  change (if (l ++ rest).length < l.length then _ else _) = _
  rw [if_neg (by simp), List.take_left, List.drop_left]

/-- Strings: the number of bytes, then the bytes. -/
def Codec.string : Codec String (fun s => s.utf8ByteSize < 2 ^ 64) where
  write s := writeVarUInt s.utf8ByteSize ++ s.toUTF8.data.toList
  read := do
    let n ← readVarUInt 10
    let l ← Reader.bytes n
    match String.fromUTF8? ⟨l.toArray⟩ with
    | some s => return s
    | none => throw "Not a string"
  reads := by
    intro s hs
    have hlen : s.toUTF8.data.toList.length = s.utf8ByteSize := rfl
    have hdecode : String.fromUTF8? ⟨s.toUTF8.data.toList.toArray⟩ = some s := by
      rw [Array.toArray_toList]
      change (if h : s.toByteArray.IsValidUTF8 then some (String.fromUTF8 s.toByteArray h) else none) = some s
      rw [dif_pos s.isValidUTF8]
      rfl
    have hbytes := Reads.bytes s.toUTF8.data.toList
    rw [hlen] at hbytes
    have hlast : Reads (match String.fromUTF8? ⟨s.toUTF8.data.toList.toArray⟩ with
        | some s => (Pure.pure s : Reader String)
        | none => throw "Not a string") [] s := by
      rw [hdecode]
      exact Reads.pure s
    have hsize : s.utf8ByteSize < 128 ^ 10 := lt_trans hs (by decide)
    refine (Reads.varUInt (by decide) hsize).bind ?_
    exact hbytes.bind_nil hlast

/-- Truth values, as the characters of 1 and 0. -/
def Codec.boolText : Codec Bool (fun _ => True) where
  write b := [if b then 49 else 48]
  read := do
    let b ← Reader.byte
    return b ≠ 48
  reads := by
    intro b _
    cases b with
    | true => exact (Reads.byte 49).bind_pure
    | false => exact (Reads.byte 48).bind_pure

end MergeTree
